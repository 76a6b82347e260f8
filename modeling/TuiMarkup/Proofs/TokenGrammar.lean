import Mathlib.Computability.RegularExpressions
import Mathlib.Tactic.Lemma
import TuiMarkup.Proofs.Emission
import TuiMarkup.Proofs.Scanning

/-! The order in which tokens come. A text without a fault gives a word of a regular language, and
no word of it leads the builder to a token that it has no place for. -/

namespace TuiMarkup.Proofs.TokenGrammar

open Markup Scanning Building RegularExpression

variable {catalog : Catalog} {source path : String} {b b' : Builder} {t : Token}
  {cs : List Content}

/-! ### Kinds of tokens -/

inductive Kind where
  | tagStart
  | attributeName
  | attributeValue
  | tagEnd
  | tagEndVoid
  | tagClose
  | text
  | cdata
  | comment
  | instruction
  | doctype
  | eof
deriving DecidableEq, Repr

def kind : Content → Kind
  | .tagStart _ => .tagStart
  | .attributeName _ => .attributeName
  | .attributeValue _ => .attributeValue
  | .tagEnd => .tagEnd
  | .tagEndVoid => .tagEndVoid
  | .tagClose _ => .tagClose
  | .text _ => .text
  | .cdata _ => .cdata
  | .comment _ => .comment
  | .instruction _ => .instruction
  | .doctype => .doctype
  | .eof => .eof

def pair : RegularExpression Kind :=
  char .attributeName * char .attributeValue

def tagStop : RegularExpression Kind :=
  char .tagEnd + char .tagEndVoid

def startTag : RegularExpression Kind :=
  char .tagStart * (pair.star * tagStop)

def item : RegularExpression Kind :=
  startTag + (char Kind.tagClose + char Kind.text + char Kind.cdata + char Kind.comment +
    char Kind.instruction + char Kind.doctype)

def grammar : RegularExpression Kind :=
  item.star * char .eof

/-! ### Streams of tokens -/

inductive Stage where
  | content
  | tag
  | attribute

inductive Fits : Stage → List Content → Prop
  | eof : Fits .content [.eof]
  | single {c : Content} {cs : List Content} : Single c → Fits .content cs → Fits .content (c :: cs)
  | start {name : String} {cs : List Content} : Fits .tag cs → Fits .content (.tagStart name :: cs)
  | name {name : String} {cs : List Content} : Fits .attribute cs →
      Fits .tag (.attributeName name :: cs)
  | value {value : String} {cs : List Content} : Fits .tag cs →
      Fits .attribute (.attributeValue value :: cs)
  | stop {cs : List Content} : Fits .content cs → Fits .tag (.tagEnd :: cs)
  | void {cs : List Content} : Fits .content cs → Fits .tag (.tagEndVoid :: cs)

def stageOf : Mode → Stage
  | .content => .content
  | .tag _ => .tag
  | .equals _ | .value _ => .attribute

lemma walks_fits {mode : Mode} {text : List Char} {s : Scan} (h : Walks mode text s)
    (hf : s.failure = none) (l : Location) :
    Fits (stageOf mode) ((Piece.locate l s.pieces).1.map (·.content) ++ [.eof]) := by
  induction h generalizing l with
  | done => exact .eof
  | fail => cases hf
  | read ht _ _ ih =>
    cases ht with
    | single hc => exact .single hc (ih hf _)
    | start => exact .start (ih hf _)
    | stop => exact .stop (ih hf _)
    | void => exact .void (ih hf _)
    | name => exact .name (ih hf _)
    | value => exact .value (ih hf _)
    | space _ | beforeEquals _ | equals | afterEquals _ => exact ih hf _

theorem tokens_fit (h : (tokenize source).fault = none) :
    Fits .content ((tokenize source).tokens.map (·.content)) := by
  have hw := scan_walks .content (Text.unifyBreakChars source.toList)
  rw [tokenize] at h ⊢
  generalize scan .content (Text.unifyBreakChars source.toList) = s at hw h ⊢
  cases hf : s.failure with
  | none =>
    have hs : Fits .content _ := walks_fits hw hf {}
    simpa [Scan.tokens, hf] using hs
  | some f => simp [Scan.tokens, hf] at h

/-! ### Words -/

def following : Stage → Language Kind
  | .content => grammar.matches'
  | .tag => pair.star.matches' * (tagStop.matches' * grammar.matches')
  | .attribute =>
    (char .attributeValue).matches' *
      (pair.star.matches' * (tagStop.matches' * grammar.matches'))

lemma cons_mem {k : Kind} {w : List Kind} {L : Language Kind} (h : w ∈ L) :
    k :: w ∈ (char k).matches' * L :=
  Language.append_mem_mul (Set.mem_singleton [k]) h

lemma item_following {w : List Kind} (h : w ∈ item.matches' * grammar.matches') :
    w ∈ grammar.matches' := by
  have hle : item.matches' * grammar.matches' ≤ grammar.matches' := by
    rw [grammar, matches'_mul, matches'_star, ← mul_assoc]
    exact mul_le_mul_left mul_kstar_le_kstar _
  exact hle h

lemma start_following {w : List Kind} (h : w ∈ (char .tagStart).matches' * following .tag) :
    w ∈ grammar.matches' := by
  have hs : startTag.matches' ≤ item.matches' := fun _ hw => Or.inl hw
  have hle : (char .tagStart).matches' * following .tag ≤ item.matches' * grammar.matches' := calc
    _ = startTag.matches' * grammar.matches' := by
      simp only [following, startTag, matches'_mul, mul_assoc]
    _ ≤ item.matches' * grammar.matches' := mul_le_mul_left hs _
  exact item_following (hle h)

lemma pair_following {w : List Kind}
    (h : w ∈ (char .attributeName).matches' * following .attribute) : w ∈ following .tag := by
  have hle : (char .attributeName).matches' * following .attribute ≤ following .tag := calc
    _ = pair.matches' * pair.star.matches' * (tagStop.matches' * grammar.matches') := by
      simp only [following, pair, matches'_mul, mul_assoc]
    _ ≤ _ := mul_le_mul_left mul_kstar_le_kstar _
  exact hle h

lemma stop_following {w : List Kind} (h : w ∈ tagStop.matches' * grammar.matches') :
    w ∈ following .tag := by
  rw [following, matches'_star]
  exact Language.append_mem_mul (Language.nil_mem_kstar _) h

lemma single_mem_item {c : Content} (h : Single c) : [kind c] ∈ item.matches' := by
  apply (rmatch_iff_matches' item [kind c]).mp
  cases h <;> rfl

theorem fits_word {stage : Stage} (h : Fits stage cs) : cs.map kind ∈ following stage := by
  induction h with
  | eof =>
    rw [following, grammar, matches'_mul, matches'_star]
    exact Language.append_mem_mul (Language.nil_mem_kstar _) (Set.mem_singleton [Kind.eof])
  | single hc _ ih => exact item_following (Language.append_mem_mul (single_mem_item hc) ih)
  | start _ ih => exact start_following (cons_mem ih)
  | name _ ih => exact pair_following (cons_mem ih)
  | value _ ih => exact cons_mem ih
  | stop _ ih =>
    have hs : [Kind.tagEnd] ∈ tagStop.matches' := Or.inl rfl
    exact stop_following (Language.append_mem_mul hs ih)
  | void _ ih =>
    have hs : [Kind.tagEndVoid] ∈ tagStop.matches' := Or.inr rfl
    exact stop_following (Language.append_mem_mul hs ih)

/-! ### Builders -/

inductive Misplaced : Cause → Prop
  | token : Misplaced .strayToken
  | tokenInTag : Misplaced .strayTokenInTag
  | ending : Misplaced .unexpectedEnd
  | value {name : String} : Misplaced (.missingValue name)

def stageAt : Place → Stage
  | .content => .content
  | .tag _ => .tag
  | .attribute _ _ _ => .attribute

lemma not_fits_content {c : Content} (h : Fits .content (c :: cs)) :
    (∀ name, c ≠ .attributeName name) ∧ (∀ value, c ≠ .attributeValue value) ∧ c ≠ .tagEnd ∧
      c ≠ .tagEndVoid := by
  cases h with
  | eof | start _ => simp
  | single hc _ => cases hc <;> simp

lemma content_misplaced {f : Fault} (h : Fits .content (t.content :: cs))
    (hn : b.contentToken t = .error f) : ¬ Misplaced f.cause := by
  obtain ⟨hk, hv, he, hw⟩ := not_fits_content h
  rw [Builder.contentToken] at hn
  split at hn
  · split at hn
    · cases hn
      rintro ⟨⟩
    · cases hn
  · split at hn
    · cases hn
      rintro ⟨⟩
    · split at hn
      · cases hn
      · cases hn
        rintro ⟨⟩
  iterate 2
    split at hn
    · cases hn
      rintro ⟨⟩
    · cases hn
  · cases hn
  · cases hn
  · cases hn
    rintro ⟨⟩
  · split at hn
    · cases hn
      rintro ⟨⟩
    · split at hn
      · cases hn
        rintro ⟨⟩
      · cases hn
  next hc => exact absurd hc (hk _)
  next hc => exact absurd hc (hv _)
  next hc => exact absurd hc he
  next hc => exact absurd hc hw

lemma next_misplaced {f : Fault} (h : Fits (stageAt b.place) (t.content :: cs))
    (hn : b.next catalog t = .error f) : ¬ Misplaced f.cause := by
  rw [Builder.next] at hn
  split at hn
  next hp =>
    rw [hp] at h
    exact content_misplaced h hn
  next start hp =>
    rw [hp] at h
    rw [Builder.tagToken] at hn
    generalize t.content = c at h hn
    cases h <;> cases hn
  next start name span hp =>
    rw [hp] at h
    rw [Builder.attributeToken] at hn
    generalize t.content = c at h hn
    cases h with
    | value _ =>
      dsimp only at hn
      split at hn
      · cases hn
        rintro ⟨⟩
      · cases hn

lemma fits_after_single {c : Content} (h : Fits .content (c :: cs)) (he : c ≠ .eof)
    (hs : ∀ name, c ≠ .tagStart name) : Fits .content cs := by
  cases h with
  | eof => exact absurd rfl he
  | single _ h => exact h
  | start _ => exact absurd rfl (hs _)

lemma moves_fits (hm : Moves catalog b t b') (ht : t.content ≠ .eof)
    (h : Fits (stageAt b.place) (t.content :: cs)) : Fits (stageAt b'.place) cs := by
  cases hm with
  | skip hp hs =>
    rw [hp] at h ⊢
    apply fits_after_single h ht
    rintro name hn
    rw [hn] at hs
    cases hs
  | start hp hc _ =>
    rw [hp, hc] at h
    cases h with
    | single hs _ => cases hs
    | start h => exact h
  | close hp _ hc =>
    rw [add_place]
    rw [hp] at h ⊢
    exact fits_after_single h ht (by simp [hc])
  | name hp hc =>
    rw [hp, hc] at h
    cases h with
    | name h => exact h
  | value hp hc _ =>
    rw [hp, hc] at h
    cases h with
    | value h => exact h
  | enter hp hc =>
    rw [hp, hc] at h
    cases h with
    | stop h => exact h
  | void hp hc =>
    rw [add_place]
    rw [hp, hc] at h
    cases h with
    | void h => exact h

lemma fits_eof {stage : Stage} (h : Fits stage (.eof :: cs)) : cs = [] := by
  cases h with
  | eof => rfl
  | single hc _ => cases hc

theorem build_misplaced {ts : List Token} {f : Fault}
    (h : Fits (stageAt b.place) (ts.map (·.content)))
    (hf : (Tree.build catalog b ts).fault = some f) : ¬ Misplaced f.cause := by
  induction ts generalizing b with
  | nil =>
    generalize stageAt b.place = stage at h
    cases h
  | cons t ts ih =>
    rw [Tree.build] at hf
    split at hf
    next b' hn =>
      have hm := moves_of_next hn
      by_cases ht : t.content = .eof
      · rw [List.map_cons, ht] at h
        obtain rfl := List.map_eq_nil_iff.mp (fits_eof h)
        obtain ⟨rfl, hp, -, -⟩ := hm.of_eof ht
        simp [Tree.build, Builder.endFault?, hp] at hf
      · exact ih (moves_fits hm ht h) hf
    next g hn =>
      cases hf
      exact next_misplaced h hn

/-! ### Documents -/

lemma malformed_place {x : Diagnostic} (h : Document.read catalog source path = .error x)
    (hc : x.code = .malformedMarkup) : 1 ≤ x.line ∧ 1 ≤ x.column := by
  rw [Document.read] at h
  split at h
  · cases h
    cases hc
  · dsimp only at h
    split at h
    · cases h
      exact ⟨Nat.succ_pos _, Nat.succ_pos _⟩
    · split at h
      · rw [Document.ofRoot] at h
        split at h
        · cases h
          cases hc
        · cases h
      · cases h
        cases hc

/-- The tokens of a text without a fault come in the order that the builder expects, so that a fault
of the builder is never about a token out of place. Markup without a fault has a root, and what
keeps a text from being a document is one of three reports. -/
theorem reading_fits (catalog : Catalog) (source path : String) :
    ((tokenize source).fault = none →
      (tokenize source).tokens.map (fun t => kind t.content) ∈ grammar.matches' ∧
      ∀ f, (Tree.read catalog source).fault = some f → ¬ Misplaced f.cause) ∧
    ((Tree.read catalog source).fault = none → ∃ e, (Tree.read catalog source).root = some e) ∧
    ((∃ d, Document.read catalog source path = .ok d) ∨
      ∃ x, Document.read catalog source path = .error x ∧
        (x.code = .emptyDocument ∨ x.code = .malformedMarkup ∧ 1 ≤ x.line ∧ 1 ≤ x.column ∨
          x.code = .missingClassName)) := by
  refine ⟨fun h => ⟨?_, ?_⟩, Emission.root_of_no_fault, ?_⟩
  · have hw := fits_word (tokens_fit h)
    rwa [List.map_map] at hw
  · intro f hf
    simp only [Tree.read, h] at hf
    exact build_misplaced (b := {}) (tokens_fit h) hf
  · cases hr : Document.read catalog source path with
    | ok d => exact .inl ⟨d, rfl⟩
    | error x =>
      refine .inr ⟨x, rfl, ?_⟩
      rcases Emission.read_error_code hr with hc | hc | hc
      · exact .inl hc
      · exact .inr (.inl ⟨hc, malformed_place hr hc⟩)
      · exact .inr (.inr hc)

theorem reading_fits_second_root :
    let source := "<A k = '1'><!-- --><B/>t</A ><C/>"
    (tokenize source).fault = none ∧
      [.tagStart, .attributeName, .attributeValue, .tagEnd, .comment, .tagStart, .tagEndVoid, .text,
        .tagClose, .tagStart, .tagEndVoid, .eof] ∈ grammar.matches' ∧
      (Tree.read {} source).fault.map (·.cause) = some (.secondRoot "C") ∧
      ¬ Misplaced (.secondRoot "C") := by
  intro source
  have hs : (tokenize source).fault = none := by decide +kernel
  have hc : (Tree.read {} source).fault.map (·.cause) = some (.secondRoot "C") := by decide +kernel
  obtain ⟨f, hf, hfc⟩ := Option.map_eq_some_iff.mp hc
  obtain ⟨hw, hm⟩ := (reading_fits {} source "m").1 hs
  have hk : (tokenize source).tokens.map (fun t => kind t.content) =
      [.tagStart, .attributeName, .attributeValue, .tagEnd, .comment, .tagStart, .tagEndVoid, .text,
        .tagClose, .tagStart, .tagEndVoid, .eof] := by decide +kernel
  exact ⟨hs, hk ▸ hw, hc, hfc ▸ hm f hf⟩

end TuiMarkup.Proofs.TokenGrammar
