import Mathlib.Tactic.Lemma
import TuiMarkup.Catalog.TerminalGui
import TuiMarkup.Proofs.Accounting
import TuiMarkup.Proofs.BindingGrammar
import TuiMarkup.Proofs.BindingWiring
import TuiMarkup.Proofs.Policy

/-! Data contexts with an empty name. The sources of bindings are the same as without a data context,
while the guard and the subscription take the empty name for the member to start from. -/

namespace TuiMarkup.Proofs.EmptyContext

open Accounting BindingGrammar ClassText Generation Printing Splitting Validity

variable {catalog : Catalog} {context : Option String} {d : Document}

/-! ### Bindings -/

def HasBinding (d : Document) : Prop :=
  ∃ e ∈ d.elements, ∃ a ∈ e.tag.attributes, a.kind = .property ∧
    (Binding.read? a.value none).isSome = true

lemma read?_empty (value : String) : Binding.read? value (some "") = Binding.read? value none := by
  rw [read?_context value (some "")]
  exact (read?_context value none).symm

lemma bound_empty (catalog : Catalog) (d : Document) :
    bound catalog d (some "") = bound catalog d none := by
  have hp : boundProperties catalog (some "") = boundProperties catalog none := by
    funext t
    simp only [boundProperties, read?_empty]
  have hc : boundControl? catalog (some "") = boundControl? catalog none := by
    funext f t
    simp only [boundControl?, hp]
  rw [bound, hc, bound]

lemma tied_isSome {a : Attribute} : (tied catalog context a).isSome = true ↔
    a.kind = .property ∧ (Binding.read? a.value none).isSome = true := by
  rw [tied, read?_context]
  constructor
  · intro h
    split at h
    next hk => exact ⟨hk.1, by simpa using h⟩
    next => cases h
  · rintro ⟨hk, hr⟩
    obtain ⟨b, hb⟩ := Option.isSome_iff_exists.mp hr
    obtain ⟨first, options, hp⟩ := exists_parts hb
    rw [if_pos ⟨hk, hp.isBindingValue⟩]
    simpa using hr

lemma bound_eq_nil (catalog : Catalog) (d : Document) (context : Option String) :
    bound catalog d context = [] ↔ ¬ HasBinding d := by
  have hc : ∀ t : Tag, boundControl? catalog context (Fields.build catalog d) t = none ↔
      ∀ a ∈ t.attributes, ¬ (tied catalog context a).isSome = true := by
    intro t
    rw [boundControl?, boundProperties_eq]
    simp
  rw [bound, List.filterMap_eq_nil_iff]
  simp only [hc, tied_isSome, HasBinding, Document.tags, List.forall_mem_map]
  push Not
  rfl

lemma root_mem_pieces (b : Binding) : b.root ∈ Text.pieces '.' b.path := by
  rw [Binding.root]
  split
  next root rest hc =>
    obtain ⟨he, hn⟩ := (cutFirst_eq_some (by decide : ".".toList = ['.'])).mp hc
    rw [he, pieces_append (by decide), pieces_of_not_mem hn]
    exact .head _
  next hc =>
    have hn : '.' ∉ b.path.toList := by
      intro hm
      obtain ⟨root, rest, he, hn⟩ := exists_first (by decide : ".".toList = ['.']) hm
      rw [he, cutFirst_append (by decide) hn] at hc
      cases hc
    rw [pieces_of_not_mem hn]
    exact .head _

lemma root_ne {value : String} {b : Binding} (h : Binding.read? value context = some b) :
    b.root ≠ "" := by
  obtain ⟨first, options, hp⟩ := exists_parts h
  rw [read?_of_parts hp, Option.ite_none_right_eq_some] at h
  obtain ⟨hi, h⟩ := h
  obtain ⟨p, ht⟩ := isPath_iff.mp hi
  have hpath : b.path = p.text := by
    rw [← Option.some.inj h]
    exact ht
  have hm := root_mem_pieces b
  rw [hpath, p.pieces_text] at hm
  intro he
  rw [he] at hm
  obtain ⟨c, cs, hc, -⟩ := p.identifiers _ hm
  cases hc

/-! ### Classes -/

lemma detectSource_ne :
    Wiring.detectSource (BindingWiring.targets (bound catalog d context)) ≠ some "" := by
  intro h
  obtain ⟨t, ht, hr⟩ := Option.map_eq_some_iff.mp h
  obtain ⟨e, -, a, -, -, -, hb, -⟩ := BindingWiring.target_of_mem (List.mem_of_find?_eq_some ht)
  exact root_ne hb hr

lemma source_eq_empty :
    (Wiring.make catalog context (bound catalog d context)).source = some "" ↔
      context = some "" := by
  cases context with
  | none => exact iff_of_false detectSource_ne (by simp)
  | some c => exact Iff.rfl

lemma classOf_empty (catalog : Catalog) (d : Document) :
    classOf catalog d (some "") =
      { classOf catalog d none with
        wiring := (classOf catalog d none).wiring.map fun w => { w with source := some "" } } := by
  simp only [classOf, bound_empty]
  congr 1
  split <;> rfl

/-! ### Lengths of texts -/

/-- How many characters the code takes, with a line feed after each line. -/
def extent (width indent : UInt64) (ls : List Layout) : ℕ :=
  ((linesAll indent ls).flatMap fun l => (l.render width ++ "\n").toList).length

lemma extent_append (width indent : UInt64) (ls ms : List Layout) :
    extent width indent (ls ++ ms) = extent width indent ls + extent width indent ms := by
  rw [extent, linesAll_append, List.flatMap_append, List.length_append]
  rfl

lemma extent_line (width indent : UInt64) {text : String} (ht : text ≠ "") (ls : List Layout) :
    extent width indent (.line text :: ls) =
      (indent * width).toNat + text.length + 1 + extent width indent ls := by
  have hl : extent width indent [.line text] = (indent * width).toNat + text.length + 1 := by
    simp [extent, linesAll, lines, Line.render, Text.blanks, ht, String.length_toList, Nat.add_assoc]
  rw [← hl]
  exact extent_append width indent [.line text] ls

lemma extent_blank (width indent : UInt64) (ls : List Layout) :
    extent width indent (.blank :: ls) = 1 + extent width indent ls := by
  have hb : extent width indent [.blank] = 1 := by simp [extent, linesAll, lines, Line.render]
  rw [← hb]
  exact extent_append width indent [.blank] ls

lemma extent_braced (width indent : UInt64) (header : String) (body : List Layout) :
    extent width indent (Layout.braced header body) =
      extent width indent (Layout.braced header []) + extent width (indent + 1) body := by
  simp only [extent, Layout.braced, linesAll, lines, List.flatMap_append, List.flatMap_cons,
    List.length_append, List.flatMap_nil, List.append_nil]
  omega

lemma toList_intercalate_concat (ss : List String) :
    ("\n".intercalate (ss ++ [""])).toList = ss.flatMap fun s => (s ++ "\n").toList := by
  induction ss with
  | nil => rfl
  | cons s ss ih =>
    rw [List.cons_append, String.intercalate_cons_of_ne_nil (by simp), String.toList_append, ih,
      List.flatMap_cons]

lemma length_textOf (width : ℕ) (ls : List Layout) :
    (textOf width ls).length = extent (.ofNat width) 0 ls := by
  have hl := toList_intercalate_concat ((linesAll 0 ls).map (Line.render (.ofNat width)))
  rw [List.flatMap_map] at hl
  rw [extent, ← hl, textOf, List.map_append]
  rfl

/-! ### Where the source is written -/

def guarded (source : Option String) : List Layout :=
  (source.map ClassFile.guardSource).getD []

def subscribed (source : Option String) : Layout :=
  .line ((source.map (· ++ ".")).getD "" ++ "PropertyChanged += " ++ ClassFile.changeHandler ++ ";")

def share (width indent : UInt64) (source : Option String) : ℕ :=
  extent width indent (guarded source ++ [subscribed source])

lemma share_none (width indent : UInt64) :
    share width indent none =
      (indent * width).toNat + ("PropertyChanged += " ++ ClassFile.changeHandler ++ ";").length +
        1 := by
  simp only [share, guarded, subscribed, Option.map_none, Option.getD_none, String.empty_append,
    List.nil_append]
  rw [extent_line width indent (by simp)]
  rfl

lemma share_some (width indent : UInt64) (s : String) :
    share width indent (some s) = share width indent none + 1 +
      ((indent * width).toNat + "if (".length +
        " == null) throw new InvalidOperationException(\"".length +
        " property must be set before calling InitializeComponent\");".length + 2) +
      3 * s.length := by
  rw [share_none]
  simp only [share, guarded, subscribed, ClassFile.guardSource, Option.map_some, Option.getD_some,
    List.cons_append, List.nil_append]
  rw [extent_line width indent (by simp), extent_blank, extent_line width indent (by simp)]
  simp only [String.length_append]
  have hd : ".".length = 1 := rfl
  have hn : extent width indent [] = 0 := rfl
  omega

lemma share_ne (width indent : UInt64) {source : Option String} (h : source ≠ some "") :
    share width indent (some "") ≠ share width indent source := by
  rw [share_some]
  cases source with
  | none => omega
  | some s =>
    have hs : s.length ≠ 0 := by
      intro hl
      exact h (congrArg some (String.length_eq_zero_iff.mp hl))
    have he : "".length = 0 := rfl
    rw [share_some]
    omega

/-- The code has the source in it once, wherever that is. -/
def Shares (width indent : UInt64) (code : Option String → List Layout) : Prop :=
  ∃ k i, ∀ source, extent width indent (code source) = k + share width i source

section Shares

variable {width indent : UInt64} {code : Option String → List Layout}

lemma Shares.append_left (h : Shares width indent code) (ls : List Layout) :
    Shares width indent fun source => ls ++ code source := by
  obtain ⟨k, i, hk⟩ := h
  refine ⟨extent width indent ls + k, i, ?_⟩
  intro source
  rw [extent_append, hk, Nat.add_assoc]

lemma Shares.append_right (h : Shares width indent code) (ls : List Layout) :
    Shares width indent fun source => code source ++ ls := by
  obtain ⟨k, i, hk⟩ := h
  refine ⟨k + extent width indent ls, i, ?_⟩
  intro source
  rw [extent_append, hk]
  omega

lemma Shares.braced (h : Shares width (indent + 1) code) (header : String) :
    Shares width indent fun source => Layout.braced header (code source) := by
  obtain ⟨k, i, hk⟩ := h
  refine ⟨extent width indent (Layout.braced header []) + k, i, ?_⟩
  intro source
  rw [extent_braced, hk, Nat.add_assoc]

lemma shares_setup (width indent : UInt64) (w : Wiring) :
    Shares width indent fun source => ClassFile.setup { w with source } := by
  apply Shares.braced
  refine ⟨extent width (indent + 1) (w.targets.flatMap ClassFile.initialStep) +
    extent width (indent + 1) [.blank, .line "// Subscribe to property changes"] +
    extent width (indent + 1) (w.reverses.map ClassFile.reverseSubscription) +
    extent width (indent + 1) (w.commands.flatMap ClassFile.enabling), indent + 1, ?_⟩
  intro source
  have hl : ∀ l, [Layout.blank, .line "// Subscribe to property changes", l] =
      [.blank, .line "// Subscribe to property changes"] ++ [l] := fun _ => rfl
  simp only [share, guarded, subscribed, hl, extent_append, Wiring.commands]
  omega

lemma shares_wiringMethods (width indent : UInt64) (w : Wiring) :
    Shares width indent fun source => ClassFile.wiringMethods { w with source } := by
  have hs := (shares_setup width indent w).append_left [.blank]
  have hd := hs.append_right (.blank :: ClassFile.dispatcher w)
  exact hd.append_right (w.reverses.flatMap ClassFile.reverseMethod)

lemma shares_layout (width : UInt64) (c : ClassFile) (w : Wiring) :
    Shares width 0 fun source => ClassFile.layout { c with wiring := some { w with source } } := by
  have hc : ∀ indent, Shares width indent fun source =>
      ClassFile.classLayout { c with wiring := some { w with source } } := by
    intro indent
    have hw := (shares_wiringMethods width (indent + 1) w).append_left
      (c.fields.map (fun f => .line ("private " ++ f.1 ++ " " ++ f.2 ++ " = null!;")) ++
        .blank :: ClassFile.initializer { c with wiring := some w })
    exact hw.braced ("partial class " ++ c.name ++ " : " ++ c.base)
  have hl : ∀ code, Shares width 0 code → Shares width 0 fun source =>
      [.line "// <auto-generated />", .line "#nullable enable", .blank] ++
        ClassFile.usings.map (fun name => .line ("using " ++ name ++ ";")) ++
          .blank :: code source := by
    intro code h
    exact (h.append_left [.blank]).append_left _
  obtain ⟨space, name, base, fields, statements, wiring⟩ := c
  cases space with
  | none => exact hl _ (hc 0)
  | some space => exact hl _ ((hc 1).braced ("namespace " ++ space))

end Shares

/-! ### The result -/

lemma wiring_eq (h : HasBinding d) (catalog : Catalog) (context : Option String) :
    (classOf catalog d context).wiring =
      some (Wiring.make catalog context (bound catalog d context)) := by
  have hb : bound catalog d context ≠ [] := fun hb => (bound_eq_nil catalog d context).mp hb h
  rw [classOf, if_neg (by simpa using hb)]

lemma wiring_eq_none (h : ¬ HasBinding d) (catalog : Catalog) (context : Option String) :
    (classOf catalog d context).wiring = none := by
  rw [classOf, (bound_eq_nil catalog d context).mpr h]
  rfl

lemma textOf_empty_ne {c : ClassFile} {w : Wiring} (hw : c.wiring = some w)
    (hs : w.source ≠ some "") (width : ℕ) :
    textOf width (ClassFile.layout { c with wiring := some { w with source := some "" } }) ≠
      textOf width c.layout := by
  intro h
  -- all but what the source brings is equally long on both sides
  obtain ⟨k, i, hk⟩ := shares_layout (.ofNat width) c w
  have hc : c = { c with wiring := some { w with source := w.source } } := by rw [← hw]
  have hl := congrArg String.length h
  rw [length_textOf, length_textOf, hk, hc, hk] at hl
  exact share_ne (.ofNat width) i hs (Nat.add_left_cancel hl)

lemma generate_empty_iff (catalog : Catalog) (d : Document) (width : ℕ) :
    d.generate catalog (some "") width = d.generate catalog none width ↔ ¬ HasBinding d := by
  rw [generate_eq, generate_eq, Except.ok.injEq, classOf_empty]
  constructor
  · intro h hb
    have hw := wiring_eq hb catalog none
    rw [hw] at h
    exact textOf_empty_ne hw detectSource_ne width h
  · intro hb
    have hw := wiring_eq_none hb catalog none
    rw [hw, Option.map_none, ← hw]

lemma dataContext_eq_empty {hint : Option String} {className : String} {resolver : TypeResolver} :
    dataContext hint className resolver = some "" ↔
      ∃ type, hint.bind Text.trimmed? = some type ∧ '.' ∈ type.toList ∧
        resolver className type = some "" := by
  rw [dataContext, Option.bind_eq_bind, Option.bind_eq_some_iff]
  refine exists_congr fun type => and_congr_right fun ht => ?_
  obtain ⟨s, -, hs⟩ := Option.bind_eq_some_iff.mp ht
  rw [Text.trimmed?, Option.ite_none_left_eq_some] at hs
  obtain ⟨hn, hs⟩ := hs
  cases hs
  by_cases hd : '.' ∈ (Text.trim s).toList <;> simp [Text.hasChar, hd, hn]

/-- With an empty data context the class is the same as without one, but for the source of its guard
and its subscription, so that the texts differ as soon as anything is bound. A document is given such
a class when its data type is resolved to a member without a name. -/
theorem empty_context (catalog : Catalog) (d : Document) (width : ℕ) :
    (∃ c, ClassFile.ofDocument catalog d none = .ok c ∧
      ClassFile.ofDocument catalog d (some "") =
        .ok { c with wiring := c.wiring.map fun w => { w with source := some "" } }) ∧
    (d.generate catalog (some "") width = d.generate catalog none width ↔ ¬ HasBinding d) ∧
    (∀ resolver options found, (d.emit catalog resolver options found).diagnostics =
      found ++ d.generationDiagnostics catalog) ∧
    ∀ resolver, ∃ c,
      ClassFile.ofDocument catalog d (dataContext d.dataType d.className resolver) = .ok c ∧
        ((∃ w, c.wiring = some w ∧ w.source = some "") ↔
          HasBinding d ∧ ∃ type, d.dataType.bind Text.trimmed? = some type ∧ '.' ∈ type.toList ∧
            resolver d.className type = some "") := by
  refine ⟨⟨_, ofDocument_eq catalog d none, ?_⟩, generate_empty_iff catalog d width, ?_, ?_⟩
  · rw [ofDocument_eq, classOf_empty]
  · intro resolver options found
    obtain ⟨text, ht⟩ := Policy.emit_eq catalog resolver options d found
    rw [ht]
  · intro resolver
    refine ⟨_, ofDocument_eq catalog d _, ?_⟩
    rw [← dataContext_eq_empty]
    constructor
    · rintro ⟨w, hw, hs⟩
      by_cases hb : HasBinding d
      · rw [wiring_eq hb, Option.some_inj] at hw
        rw [← hw] at hs
        exact ⟨hb, source_eq_empty.mp hs⟩
      · rw [wiring_eq_none hb] at hw
        cases hw
    · rintro ⟨hb, hs⟩
      exact ⟨_, wiring_eq hb catalog _, source_eq_empty.mpr hs⟩

/-! ### A guard without a member -/

def titledText : String :=
  "<Window Title='\x7bBind P\x7d' x:Class='A' x:DataType='T.V'/>"

def titled : Document where
  root := ⟨{ index := 0, type := "Window",
             attributes :=
               [⟨"Title", "\x7bBind P\x7d", .property, ⟨⟨8, 0, 8⟩, ⟨24, 0, 24⟩⟩⟩,
                 ⟨"x:Class", "A", .reserved, ⟨⟨25, 0, 25⟩, ⟨36, 0, 36⟩⟩⟩,
                 ⟨"x:DataType", "T.V", .reserved, ⟨⟨37, 0, 37⟩, ⟨53, 0, 53⟩⟩⟩],
             line := 1, column := 2, span := ⟨⟨0, 0, 0⟩, ⟨55, 0, 55⟩⟩ }, []⟩
  path := ""
  className := "A"
  dataType := some "T.V"

def titledTokens : List Markup.Token :=
  [⟨.tagStart "Window", ⟨0, 0, 0⟩, ⟨7, 0, 7⟩⟩,
    ⟨.attributeName "Title", ⟨8, 0, 8⟩, ⟨13, 0, 13⟩⟩,
    ⟨.attributeValue "\x7bBind P\x7d", ⟨14, 0, 14⟩, ⟨24, 0, 24⟩⟩,
    ⟨.attributeName "x:Class", ⟨25, 0, 25⟩, ⟨32, 0, 32⟩⟩,
    ⟨.attributeValue "A", ⟨33, 0, 33⟩, ⟨36, 0, 36⟩⟩,
    ⟨.attributeName "x:DataType", ⟨37, 0, 37⟩, ⟨47, 0, 47⟩⟩,
    ⟨.attributeValue "T.V", ⟨48, 0, 48⟩, ⟨53, 0, 53⟩⟩,
    ⟨.tagEndVoid, ⟨53, 0, 53⟩, ⟨55, 0, 55⟩⟩, ⟨.eof, ⟨55, 0, 55⟩, ⟨55, 0, 55⟩⟩]

lemma read_titled (catalog : Catalog) : Document.read catalog titledText "" = .ok titled := by
  have ht : Markup.tokenize titledText = ⟨titledTokens, none⟩ := by decide +kernel
  have hk : Text.startsWith "x:" "x:Class" = true ∧ Text.startsWith "x:" "x:DataType" = true ∧
      Text.startsWith "x:" "Title" = false ∧ Text.startsWith "xmlns" "Title" = false := by
    decide +kernel
  have hb : isBindingValue "\x7bBind P\x7d" = true := by decide +kernel
  have hl : Markup.localName "Window" = "Window" := by decide +kernel
  have ho : ∀ a b c : Markup.RawAttribute, a.key ≤ b.key → a.key ≤ c.key → b.key ≤ c.key →
      [a, b, c].mergeSort (fun a b => decide (a.key ≤ b.key)) = [a, b, c] :=
    fun a b c h₁ h₂ h₃ => List.mergeSort_of_pairwise (by simp [h₁, h₂, h₃])
  have hr : Markup.Tree.read catalog titledText = ⟨some titled.root, none⟩ := by
    rw [Markup.Tree.read, ht]
    simp [Markup.Tree.build, titledTokens, Markup.Builder.next, Markup.Builder.contentToken,
      Markup.Builder.tagToken, Markup.Builder.attributeToken, Markup.Builder.makeTag,
      Markup.Builder.add, Markup.Builder.endFault?, titled, AttributeKind.of, hk, hb, hl, ho]
  have hs : Text.trim titledText ≠ "" := by decide +kernel
  have hc : Text.trimmed? "A" = some "A" ∧ Text.trimmed? "T.V" = some "T.V" := by decide +kernel
  rw [Document.read, if_neg hs, hr]
  simp [Document.ofRoot, titled, Tag.attribute?, hc]

def nameless : TypeMap :=
  TypeMap.insert {} "A" "" "T.V"

theorem empty_context_guarded :
    ∃ d, Document.read .terminalGui titledText "" = .ok d ∧
      dataContext d.dataType d.className nameless.propertyOfType? = some "" ∧
      d.generate .terminalGui (some "") 4 ≠ d.generate .terminalGui none 4 := by
  refine ⟨titled, read_titled .terminalGui, by decide +kernel, ?_⟩
  rw [ne_eq, generate_empty_iff, not_not]
  have hr : (Binding.read? "\x7bBind P\x7d" none).isSome = true := by decide +kernel
  have hm : titled.root ∈ titled.elements := by
    simp [Document.elements, Element.descendants, Element.walk, titled]
  exact ⟨titled.root, hm, _, .head _, rfl, hr⟩

end TuiMarkup.Proofs.EmptyContext
