import Mathlib.Data.Multiset.AddSub
import Mathlib.Tactic.Lemma
import TuiMarkup.Proofs.Building

/-! Tokens without what leaves no trace in the tree, and the tree that follows from them. -/

namespace TuiMarkup.Proofs.TokenStructure

open Markup Building

variable {catalog : Catalog} {b b' : Builder} {t : Token} {name source : String}
  {xs ys : List Content}

/-! ### Structure of token streams -/

/-- What is left of a token in a tag of this name. An element without content is closed as others
are, and names of elements lose their namespaces. -/
def stripped (name : String) : Content → List Content
  | .text _ | .cdata _ | .comment _ | .instruction _ => []
  | .tagStart name => [.tagStart (localName name)]
  | .tagClose name => [.tagClose (localName name)]
  | .tagEndVoid => [.tagEnd, .tagClose (localName name)]
  | c => [c]

def tagName (name : String) : Content → String
  | .tagStart name => name
  | _ => name

def plain (name : String) : List Token → List Content
  | [] => []
  | t :: ts => stripped name t.content ++ plain (tagName name t.content) ts

def structureOf (source : String) : List Content :=
  plain "" (tokenize source).tokens

def pairs (as : List (String × String)) : List Content :=
  as.flatMap fun (key, value) => [.attributeName key, .attributeValue value]

/-- The streams differ in the order of attributes only. -/
inductive Rearranged : List Content → List Content → Prop
  | nil : Rearranged [] []
  | cons {xs ys : List Content} (c : Content) : Rearranged xs ys → Rearranged (c :: xs) (c :: ys)
  | tag {name : String} {as bs : List (String × String)} {xs ys : List Content} : as.Perm bs →
      Rearranged xs ys →
      Rearranged (.tagStart name :: (pairs as ++ xs)) (.tagStart name :: (pairs bs ++ ys))

/-! ### Sketches -/

inductive Sketch where
  | node (index : ℕ) (type : String) (attributes : Multiset (String × String))
      (children : List Sketch)

def attributesOf (t : Tag) : Multiset (String × String) :=
  (t.attributes.map fun a => (a.key, a.value) : List (String × String))

mutual

def sketch : Element → Sketch
  | ⟨tag, children⟩ => .node tag.index tag.type (attributesOf tag) (sketchAll children)

def sketchAll : List Element → List Sketch
  | [] => []
  | e :: es => sketch e :: sketchAll es

end

lemma sketchAll_eq_map (es : List Element) : sketchAll es = es.map sketch := by
  induction es with
  | nil => rfl
  | cons e es ih => rw [sketchAll, ih, List.map_cons]

/-- What the builder has come to, without places. -/
structure Draft where
  type : String := ""
  attributes : Multiset (String × String) := 0
  key : String := ""
  opened : List Sketch := []
  root : Option Sketch := none
  count : ℕ := 0

namespace Draft

def add (d : Draft) (s : Sketch) : Draft :=
  match d.opened with
  | [] => { d with root := some s }
  | .node i type attributes children :: os =>
    { d with opened := .node i type attributes (s :: children) :: os }

def close (d : Draft) : Draft :=
  match d.opened with
  | [] => d
  | .node i type attributes children :: os =>
    { d with opened := os }.add (.node i type attributes children.reverse)

def next (d : Draft) : Content → Draft
  | .tagStart type => { d with type, attributes := 0, key := "" }
  | .attributeName key => { d with key }
  | .attributeValue value => { d with attributes := (d.key, value) ::ₘ d.attributes, key := "" }
  | .tagEnd =>
    { d with type := "", attributes := 0, count := d.count + 1
             opened := .node d.count d.type d.attributes [] :: d.opened }
  | .tagClose _ => d.close
  | _ => d

end Draft

lemma foldl_pairs {as : List (String × String)} {d : Draft} (hk : d.key = "") :
    (pairs as).foldl Draft.next d =
      { d with attributes := (as : Multiset (String × String)) + d.attributes } := by
  induction as generalizing d with
  | nil => simp [pairs]
  | cons a as ih =>
    obtain ⟨key, value⟩ := a
    change (pairs as).foldl Draft.next _ = _
    rw [ih rfl]
    simp [Draft.next, hk, ← Multiset.cons_coe]

theorem foldl_rearranged (h : Rearranged xs ys) (d : Draft) :
    xs.foldl Draft.next d = ys.foldl Draft.next d := by
  induction h generalizing d with
  | nil => rfl
  | cons c _ ih => exact ih (d.next c)
  | tag hp _ ih =>
    rw [List.foldl_cons, List.foldl_cons, List.foldl_append, List.foldl_append, foldl_pairs rfl,
      foldl_pairs rfl, Multiset.coe_eq_coe.mpr hp]
    exact ih _

/-! ### Builders -/

def openSketch (o : OpenElement) : Sketch :=
  sketch ⟨o.tag, o.children⟩

def rawPairs (start : StartTag) : Multiset (String × String) :=
  (start.attributes.map fun a => (a.key, a.value) : List (String × String))

def draft (b : Builder) : Draft :=
  let d : Draft :=
    { opened := b.opened.map openSketch, root := b.root.map sketch, count := b.count }
  match b.place with
  | .content => d
  | .tag start => { d with type := localName start.name, attributes := rawPairs start }
  | .attribute start key _ =>
    { d with type := localName start.name, attributes := rawPairs start, key }

lemma attributesOf_makeTag (index : ℕ) (start : StartTag) (stop : Location) :
    attributesOf (Builder.makeTag catalog index start stop) = rawPairs start := by
  apply Multiset.coe_eq_coe.mpr
  have hp := (List.mergeSort_perm start.attributes fun a b => decide (a.key ≤ b.key)).map
    fun a => (a.key, a.value)
  simpa [Builder.makeTag, Function.comp_def] using hp

lemma draft_add (hp : b.place = .content) (e : Element) :
    draft (b.add e) = (draft b).add (sketch e) := by
  cases ho : b.opened with
  | nil => simp [Builder.add, draft, Draft.add, ho, hp]
  | cons o os => simp [Builder.add, draft, Draft.add, ho, hp, openSketch, sketch, sketchAll]

lemma sketch_closed (o : OpenElement) (stop : Location) :
    sketch (closed o stop) =
      .node o.tag.index o.tag.type (attributesOf o.tag) (sketchAll o.children).reverse := by
  simp [closed, sketch, sketchAll_eq_map, attributesOf]

lemma sketch_makeTag (index : ℕ) (start : StartTag) (stop : Location) :
    sketch ⟨Builder.makeTag catalog index start stop, []⟩ =
      .node index (localName start.name) (rawPairs start) [] := by
  rw [sketch, attributesOf_makeTag, sketchAll]
  rfl

lemma draft_moves (hm : Moves catalog b t b') (name : String) :
    draft b' = (stripped name t.content).foldl Draft.next (draft b) := by
  cases hm with
  | skip hp hs =>
    generalize t.content = c at hs
    cases hs <;> rfl
  | start hp hc _ =>
    rw [hc]
    simp [draft, hp, stripped, Draft.next, rawPairs]
  | @close o os hp ho hc =>
    rw [hc, draft_add (b := { b with opened := os }) hp, sketch_closed]
    simp [draft, hp, ho, stripped, Draft.next, Draft.close, openSketch, sketch]
  | name hp hc =>
    rw [hc]
    simp [draft, hp, stripped, Draft.next]
  | value hp hc _ =>
    rw [hc]
    simp [draft, hp, stripped, Draft.next, rawPairs]
  | enter hp hc =>
    rw [hc]
    simp [draft, hp, stripped, Draft.next, openSketch, sketch_makeTag]
  | void hp hc =>
    rw [hc, draft_add rfl, sketch_makeTag]
    simp [draft, hp, stripped, Draft.next, Draft.close]

/-- The tree of tokens without a fault follows from their structure. -/
theorem build_sketch {ts : List Token} (hf : (Tree.build catalog b ts).fault = none)
    (name : String) :
    (Tree.build catalog b ts).root.map sketch =
      ((plain name ts).foldl Draft.next (draft b)).root := by
  induction ts generalizing b name with
  | nil =>
    rw [Tree.build, plain, List.foldl_nil, draft]
    split <;> rfl
  | cons t ts ih =>
    rw [Tree.build] at hf ⊢
    split at hf
    next b' h =>
      rw [ih hf, draft_moves (moves_of_next h) name, plain, List.foldl_append]
    · cases hf

theorem read_sketch (hf : (Tree.read catalog source).fault = none) :
    (Tree.read catalog source).root.map sketch =
      ((structureOf source).foldl Draft.next {}).root := by
  rw [Tree.read] at hf ⊢
  split at hf
  · cases hf
  · exact build_sketch hf ""

end TuiMarkup.Proofs.TokenStructure
