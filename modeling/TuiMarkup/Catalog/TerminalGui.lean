import TuiMarkup.Catalog.Schema

/-!
The controls of Terminal.Gui.
-/

namespace TuiMarkup.Catalog

def terminalGuiControls : List String :=
  [
    "Window=Terminal.Gui.Views.Window:container|*Loaded=System.EventHandler,*Closing=System.EventHandler",
    "View=Terminal.Gui.ViewBase.View:container|",
    "Dialog=Terminal.Gui.Views.Dialog:container:button-slot|*Loaded=System.EventHandler,*Closing=System.EventHandler",
    "Label=Terminal.Gui.Views.Label|",
    "Button=Terminal.Gui.Views.Button:action|*Accepting=System.EventHandler<System.EventArgs>,*~Clicked>Accepting=System.EventHandler<System.EventArgs>",
    "TextField=Terminal.Gui.Views.TextField|*TextChanged=System.EventHandler<System.EventArgs>,*Accept=System.EventHandler<System.EventArgs>,<>Text>TextChanged",
    "TextView=Terminal.Gui.Views.TextView|*TextChanged=System.EventHandler<System.EventArgs>,<>Text>TextChanged",
    "CheckBox=Terminal.Gui.Views.CheckBox|*ValueChanged=System.EventHandler,*~Toggled>ValueChanged=System.EventHandler,<>Checked>ValueChanged",
    "OptionSelector=Terminal.Gui.Views.OptionSelector:generic|*SelectedItemChanged=System.EventHandler",
    "ListView=Terminal.Gui.Views.ListView|*ValueChanged=System.EventHandler<Terminal.Gui.App.ValueChangedEventArgs<int?>>,*ValueChanging=System.EventHandler<Terminal.Gui.App.ValueChangingEventArgs<int?>>,*SourceChanged=System.EventHandler,*CollectionChanged=System.Collections.Specialized.NotifyCollectionChangedEventHandler,*RowRender=System.EventHandler<Terminal.Gui.Views.ListViewRowEventArgs>,*~SelectedItemChanged>ValueChanged=System.EventHandler,*OpenSelectedItem=System.EventHandler,<>Value>ValueChanged,<>Source>SourceChanged",
    "FrameView=Terminal.Gui.Views.FrameView:container|",
    "ScrollView=Terminal.Gui.Views.ScrollView:container|",
    "TabView=Terminal.Gui.Views.TabView:container|",
    "MenuBar=Terminal.Gui.Views.MenuBar|",
    "MenuBarItem=Terminal.Gui.Views.MenuBarItem:container|*Accepting=System.EventHandler<Terminal.Gui.Input.CommandEventArgs>,*Accepted=System.EventHandler<Terminal.Gui.Input.CommandEventArgs>,*PopoverMenuOpenChanged=System.EventHandler",
    "MenuItem=Terminal.Gui.Views.MenuItem|*Accepting=System.EventHandler<Terminal.Gui.Input.CommandEventArgs>,*Accepted=System.EventHandler<Terminal.Gui.Input.CommandEventArgs>",
    "StatusBar=Terminal.Gui.Views.StatusBar:container|",
    "Shortcut=Terminal.Gui.Views.Shortcut|*Accepting=System.EventHandler<Terminal.Gui.Input.CommandEventArgs>,*Accepted=System.EventHandler<Terminal.Gui.Input.CommandEventArgs>,*OrientationChanging=System.EventHandler<Terminal.Gui.App.ValueChangingEventArgs<Terminal.Gui.ViewBase.Orientation>>,*OrientationChanged=System.EventHandler<Terminal.Gui.App.ValueChangedEventArgs<Terminal.Gui.ViewBase.Orientation>>",
    "ProgressBar=Terminal.Gui.Views.ProgressBar|",
    "SpinnerView=Terminal.Gui.Views.SpinnerView|"]

def terminalGuiScopes : List String :=
  [
    "Common|^X,^Y,^Width,^Height,Text,Title,!Enabled,!Visible",
    "Button|&Command,!IsDefault",
    "TextField|!ReadOnly,!Secret",
    "TextView|!ReadOnly,!WordWrap",
    "CheckBox|!Checked",
    "OptionSelector|@Options",
    "ListView|#SelectedItem,!AllowMultipleSelection",
    "ProgressBar|$Fraction",
    "SpinnerView|!IsSpinning",
    "Shortcut|%Key=Terminal.Gui.Input.Key,HelpText,Text,!BindKeyToApplication,%AlignmentModes=Terminal.Gui.ViewBase.AlignmentModes,#MinimumKeyTextSize,!ForceFocusColors,%Orientation=Terminal.Gui.ViewBase.Orientation,&Command",
    "MenuItem|%HotKey=Terminal.Gui.Input.Key,&Command",
    "MenuBarItem|%HotKey=Terminal.Gui.Input.Key,!PopoverMenuOpen"]

def terminalGui : Catalog :=
  ofSchema terminalGuiControls terminalGuiScopes

end TuiMarkup.Catalog
