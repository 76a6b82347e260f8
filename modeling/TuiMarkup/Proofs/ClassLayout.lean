import Mathlib.Tactic.Lemma
import TuiMarkup.Code.ClassFile
import TuiMarkup.Proofs.Layout

/-! The class that is generated for a document, as lines and blocks. -/

namespace TuiMarkup

open Layout

namespace ClassFile

/-! ### Methods -/

def initializer (c : ClassFile) : List Layout :=
  Layout.braced "private void InitializeComponent()" <|
    c.statements.map (.line ·.text) ++
    if c.wiring.isSome then [.blank, .line "SetupBindings();"] else []

def guardSource (source : String) : List Layout :=
  [.line ("if (" ++ source ++ " == null) throw new InvalidOperationException(\"" ++ source ++
      " property must be set before calling InitializeComponent\");"),
    .blank]

def activation (t : Target) : List Layout :=
  let source := t.binding.source
  [.line ("// Wire up command: " ++ source),
    .block (t.field ++ "." ++ activationEvent ++ " += (s, e) => \x7b")
      [.line ("if (" ++ source ++ "?.CanExecute(null) == true)"),
        .inset [.line (source ++ ".Execute(null);")]]
      "\x7d;"]

def initialStep (t : Target) : List Layout :=
  if t.isCommand then activation t else [.line t.assignment]

def reverseSubscription (r : Reverse) : Layout :=
  .line (r.target.field ++ "." ++ r.changeEvent ++ " += " ++ r.target.handler ++ ";")

def enabling (t : Target) : List Layout :=
  let source := t.binding.source
  let enable := t.field ++ ".Enabled = " ++ source ++ ".CanExecute(null);"
  .line ("// Subscribe to CanExecuteChanged for " ++ t.field) ::
    Layout.braced ("if (" ++ source ++ " != null)")
      [.block (source ++ ".CanExecuteChanged += (s, e) => \x7b") [.line enable] "\x7d;",
        .line "// Set initial Enabled state",
        .line enable]

def setup (w : Wiring) : List Layout :=
  Layout.braced "private void SetupBindings()" <|
    (w.source.map guardSource).getD [] ++
    w.targets.flatMap initialStep ++
    [.blank, .line "// Subscribe to property changes",
      .line ((w.source.map (· ++ ".")).getD "" ++ "PropertyChanged += " ++ changeHandler ++ ";")] ++
    w.reverses.map reverseSubscription ++
    w.commands.flatMap enabling

def dispatchCase (member : String) (assignments : List String) : List Layout :=
  [.line ("case \"" ++ member ++ "\":"), .inset (assignments.map .line ++ [.line "break;"])]

def dispatcher (w : Wiring) : List Layout :=
  Layout.braced ("private void " ++ changeHandler ++ "(object? sender, PropertyChangedEventArgs e)")
    (Layout.braced "switch (e.PropertyName)" (w.cases.entries.flatMap fun (m, as) => dispatchCase m as))

def reverseMethod (r : Reverse) : List Layout :=
  let source := r.target.binding.source
  let target := r.target.field ++ "." ++ r.target.property
  .blank ::
    Layout.braced
      ("private void " ++ r.target.handler ++ "(object? sender, " ++ r.argumentType ++ " e)")
      [.line ("if (" ++ source ++ " != " ++ target ++ ")"),
        .inset [.line (source ++ " = " ++ target ++ ";")]]

def wiringMethods (w : Wiring) : List Layout :=
  .blank :: setup w ++ .blank :: dispatcher w ++ w.reverses.flatMap reverseMethod

/-! ### The file -/

def classLayout (c : ClassFile) : List Layout :=
  Layout.braced ("partial class " ++ c.name ++ " : " ++ c.base) <|
    c.fields.map (fun (type, name) => .line ("private " ++ type ++ " " ++ name ++ " = null!;")) ++
    .blank :: c.initializer ++
    (c.wiring.map wiringMethods).getD []

def layout (c : ClassFile) : List Layout :=
  [.line "// <auto-generated />", .line "#nullable enable", .blank] ++
  usings.map (fun name => .line ("using " ++ name ++ ";")) ++
  .blank :: match c.space with
    | some space => Layout.braced ("namespace " ++ space) c.classLayout
    | none => c.classLayout

/-! ### What is printed -/

variable {p : Page}

lemma printAll_braced (header : String) (body ls : List Layout) :
    printAll p (Layout.braced header body ++ ls) =
      ((printAll (p.println header).openBlock body).bind (·.closeBlock "\x7d")).bind
        (printAll · ls) := by
  rw [Layout.braced, List.cons_append, List.cons_append, printAll_line, printAll_block]
  rfl

lemma printAll_braced_nil (header : String) (body : List Layout) :
    printAll p (Layout.braced header body) =
      (printAll (p.println header).openBlock body).bind (·.closeBlock "\x7d") := by
  rw [← List.append_nil (Layout.braced header body), printAll_braced]
  simp only [printAll_nil, bind_ok]

theorem printInitializer_eq (p : Page) (c : ClassFile) :
    printInitializer p c = printAll p c.initializer := by
  rw [initializer, printAll_braced_nil, printAll_append, printAll_lines, printInitializer]
  cases c.wiring.isSome <;> simp [printAll_blank, printAll_line, printAll_nil]

lemma printActivation_eq (p : Page) (t : Target) :
    printActivation p t = printAll p (activation t) := by
  simp [printActivation, activation, bind_eq, printAll_line, printAll_block, printAll_inset,
    printAll_nil]

lemma printInitial_eq (p : Page) (t : Target) :
    printInitial p t = printAll p (initialStep t) := by
  rw [printInitial, initialStep]
  split
  · exact printActivation_eq p t
  · rw [printAll_line, printAll_nil]

lemma printEnabling_eq (p : Page) (t : Target) :
    printEnabling p t = printAll p (enabling t) := by
  simp [printEnabling, enabling, bind_eq, printAll_line, printAll_braced_nil, printAll_block,
    printAll_nil]

lemma printGuard_eq (p : Page) (source : Option String) :
    printAll p ((source.map guardSource).getD []) = .ok ((source.map (printGuard p)).getD p) := by
  cases source with
  | none => exact printAll_nil
  | some source => simp [guardSource, printGuard, printAll_line, printAll_blank, printAll_nil]

lemma printSubscriptions_eq (p : Page) (rs : List Reverse) :
    printAll p (rs.map reverseSubscription) =
      .ok (rs.foldl (fun p r => p.println (subscription r)) p) :=
  printAll_lines subscription rs

lemma printSetup_eq (p : Page) (w : Wiring) : printSetup p w = printAll p (setup w) := by
  simp [printSetup, setup, bind_eq, printAll_braced_nil, printAll_append, printGuard_eq,
    printAll_flatMap, ← printInitial_eq, printAll_blank, printAll_line, printSubscriptions_eq,
    ← printEnabling_eq]

lemma printCase_eq (p : Page) (member : String) (assignments : List String) :
    printCase p member assignments = printAll p (dispatchCase member assignments) := by
  have ha : ∀ q, printAll q (assignments.map .line) = .ok (assignments.foldl Page.println q) :=
    fun q => printAll_lines id assignments
  simp [printCase, dispatchCase, printAll_line, printAll_inset, printAll_append, ha, printAll_nil]

theorem printDispatcher_eq (p : Page) (w : Wiring) :
    printDispatcher p w = printAll p (dispatcher w) := by
  simp [printDispatcher, dispatcher, bind_eq, printAll_braced_nil, printAll_flatMap, printCase_eq]

lemma printReverse_eq (p : Page) (r : Reverse) : printReverse p r = printAll p (reverseMethod r) := by
  simp [printReverse, reverseMethod, bind_eq, printAll_blank, printAll_braced_nil, printAll_line,
    printAll_inset, printAll_nil]

lemma printWiring_eq (p : Page) (w : Wiring) : printWiring p w = printAll p (wiringMethods w) := by
  simp [printWiring, wiringMethods, bind_eq, printAll_append, printAll_blank, printSetup_eq,
    printDispatcher_eq, printAll_flatMap, ← printReverse_eq]

lemma printFields_eq (p : Page) (fields : List (String × String)) :
    printAll p (fields.map fun (type, name) =>
        .line ("private " ++ type ++ " " ++ name ++ " = null!;")) =
      .ok (fields.foldl (fun p (type, name) =>
        p.println ("private " ++ type ++ " " ++ name ++ " = null!;")) p) := by
  induction fields generalizing p with
  | nil => exact printAll_nil
  | cons f fields ih => rw [List.map_cons, printAll_line, ih, List.foldl_cons]

/-- The calls that print the class are those of its layout. -/
theorem printClass_eq (p : Page) (c : ClassFile) : printClass p c = printAll p c.classLayout := by
  rw [printClass, classLayout, printAll_braced_nil, printAll_append, printAll_append, printFields_eq]
  cases c.wiring <;> simp [bind_eq, printAll_blank, printInitializer_eq, printWiring_eq, printAll_nil]

theorem print_eq (p : Page) (c : ClassFile) : print p c = printAll p c.layout := by
  rw [print, layout]
  cases c.space <;>
    simp [bind_eq, printAll_append, printAll_lines, printAll_line, printAll_blank,
      printAll_braced_nil, printClass_eq]

end ClassFile

end TuiMarkup
