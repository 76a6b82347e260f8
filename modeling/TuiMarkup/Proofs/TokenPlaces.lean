import Mathlib.Tactic.Lemma
import TuiMarkup.Proofs.Scanning

/-! Where the tokens of a text stand. They come one after the other, and without a fault nothing
lies between them but the white space and the equals signs of start tags. -/

namespace TuiMarkup.Proofs.TokenPlaces

open Markup Scanning Rendering

variable {l m k : Location} {before text cs gap : List Char} {a a' : Option Content} {c : Content}
  {t : Token} {ts : List Token}

/-! ### Places -/

/-- The place behind the text `before`, counted from the beginning. -/
structure At (before : List Char) (l : Location) : Prop where
  offset : l.offset = (String.ofList before).utf8ByteSize
  line : l.line = before.count '\n'
  column : l.column = (before.reverse.takeWhile (· != '\n')).length

lemma at_origin : At [] {} :=
  ⟨rfl, rfl, rfl⟩

lemma At.advance (h : At before l) (c : Char) : At (before ++ [c]) (l.advance c) := by
  have hs : (String.ofList (before ++ [c])).utf8ByteSize = l.offset + c.utf8Size := by
    rw [String.ofList_append, String.utf8ByteSize_append, h.offset]
    simp
  rw [Location.advance]
  split
  next hc =>
    subst hc
    exact ⟨hs.symm, by simp [h.line], by simp⟩
  next hc =>
    refine ⟨hs.symm, by simp [h.line, hc], ?_⟩
    simp [h.column, hc]

lemma At.after (h : At before l) (cs : List Char) : At (before ++ cs) (l.after cs) := by
  induction cs generalizing before l with
  | nil => simpa [Location.after] using h
  | cons c cs ih =>
    have hc := ih (h.advance c)
    rwa [List.append_assoc] at hc

def Before (l m : Location) : Prop :=
  l.offset < m.offset ∧ (l.line < m.line ∨ l.line = m.line ∧ l.column < m.column)

def NotAfter (l m : Location) : Prop :=
  l = m ∨ Before l m

lemma Before.trans (h : Before l m) (h' : Before m k) : Before l k := by
  unfold Before at *
  omega

lemma NotAfter.trans_before (h : NotAfter l m) (h' : Before m k) : Before l k := by
  rcases h with rfl | h
  · exact h'
  · exact h.trans h'

lemma Before.trans_notAfter (h : Before l m) (h' : NotAfter m k) : Before l k := by
  rcases h' with rfl | h'
  · exact h
  · exact h.trans h'

lemma NotAfter.offset_le (h : NotAfter l m) : l.offset ≤ m.offset := by
  rcases h with rfl | h
  · exact le_rfl
  · exact h.1.le

lemma At.before_of_append (h : At before l) (h' : At (before ++ text) m) (ht : text ≠ []) :
    Before l m := by
  have hs : 0 < (String.ofList text).utf8ByteSize := by
    apply Nat.pos_of_ne_zero
    intro h0
    have he := congrArg String.toList (String.utf8ByteSize_eq_zero_iff.mp h0)
    exact ht (by simpa using he)
  refine ⟨?_, ?_⟩
  · rw [h.offset, h'.offset, String.ofList_append, String.utf8ByteSize_append]
    omega
  · rw [h.line, h'.line, h.column, h'.column, List.count_append, List.reverse_append]
    by_cases hn : '\n' ∈ text
    · have hp := List.count_pos_iff.mpr hn
      omega
    · right
      have hr : ∀ c ∈ text.reverse, (c != '\n') = true := by
        intro c hc
        have hc' := List.mem_reverse.mp hc
        simpa using ne_of_mem_of_not_mem hc' hn
      have hl := List.length_pos_iff.mpr ht
      rw [List.count_eq_zero_of_not_mem hn, List.takeWhile_append_of_pos hr, List.length_append,
        List.length_reverse]
      omega

lemma At.unique (h : At before l) (h' : At before m) : l = m := by
  cases l
  cases m
  rw [Location.mk.injEq]
  exact ⟨h.offset.trans h'.offset.symm, h.line.trans h'.line.symm,
    h.column.trans h'.column.symm⟩

lemma At.notAfter_of_append (h : At before l) (h' : At (before ++ text) m) : NotAfter l m := by
  by_cases ht : text = []
  · rw [ht, List.append_nil] at h'
    exact .inl (h.unique h')
  · exact .inr (h.before_of_append h' ht)

/-! ### Gaps -/

inductive Tagged : Content → Prop
  | start {name : String} : Tagged (.tagStart name)
  | value {value : String} : Tagged (.attributeValue value)

inductive Outside : Option Content → Prop
  | none : Outside none
  | single {c : Content} : Single c → Outside (some c)
  | stop : Outside (some .tagEnd)
  | void : Outside (some .tagEndVoid)

inductive Gap : Option Content → Content → List Char → Prop
  | single {a : Option Content} {c : Content} : Outside a → Single c → Gap a c []
  | start {a : Option Content} {name : String} : Outside a → Gap a (.tagStart name) []
  | name {c : Content} {name : String} {space : List Char} : Tagged c → IsSpace space →
      space ≠ [] → Gap (some c) (.attributeName name) space
  | value {name value : String} {space space' : List Char} : IsSpace space → IsSpace space' →
      Gap (some (.attributeName name)) (.attributeValue value) (space ++ '=' :: space')
  | stop {c : Content} {space : List Char} : Tagged c → IsSpace space →
      Gap (some c) .tagEnd space
  | void {c : Content} {space : List Char} : Tagged c → IsSpace space →
      Gap (some c) .tagEndVoid space

/-- The text between `before` and `done` is made up of the tokens and the gaps in front of them. -/
inductive Laid : Option Content → List Char → List Token → Option Content → List Char → Prop
  | nil {a : Option Content} {before : List Char} : Laid a before [] a before
  | cons {a a' : Option Content} {before gap part done : List Char} {t : Token} {ts : List Token} :
      Gap a t.content gap → part ≠ [] → At (before ++ gap) t.span.start →
      At (before ++ (gap ++ part)) t.span.stop →
      Laid (some t.content) (before ++ (gap ++ part)) ts a' done → Laid a before (t :: ts) a' done

inductive Pending : Mode → Option Content → List Char → Prop
  | content {a : Option Content} : Outside a → Pending .content a []
  | tag {c : Content} {space : List Char} {spaced : Bool} : Tagged c → IsSpace space →
      (spaced = true → space ≠ []) → Pending (.tag spaced) (some c) space
  | equals {name : String} {space : List Char} : IsSpace space →
      Pending (.equals name) (some (.attributeName name)) space
  | value {name : String} {space space' : List Char} : IsSpace space → IsSpace space' →
      Pending (.value name) (some (.attributeName name)) (space ++ '=' :: space')

lemma IsSpace.append {xs ys : List Char} (hx : IsSpace xs) (hy : IsSpace ys) :
    IsSpace (xs ++ ys) := by
  intro c hc
  rcases List.mem_append.mp hc with hc | hc
  · exact hx c hc
  · exact hy c hc

lemma Pending.take_gap {mode next : Mode} (h : Pending mode a gap)
    (ht : Takes mode (.gap text) next) (hn : text ≠ []) : Pending next a (gap ++ text) := by
  cases ht with
  | space hs =>
    cases h with
    | tag hc hg _ => exact .tag hc (IsSpace.append hg hs) fun _ => by simp [hn]
  | beforeEquals hs =>
    cases h with
    | equals hg => exact .equals (IsSpace.append hg hs)
  | equals =>
    cases h with
    | equals hg => exact .value hg (by nofun)
  | afterEquals hs =>
    cases h with
    | value hg hg' =>
      rw [List.append_assoc, List.cons_append]
      exact .value hg (IsSpace.append hg' hs)

lemma Pending.take_token {mode next : Mode} (h : Pending mode a gap)
    (ht : Takes mode (.token c text) next) : Gap a c gap ∧ Pending next (some c) [] := by
  cases ht with
  | single hc =>
    cases h with
    | content ho => exact ⟨.single ho hc, .content (.single hc)⟩
  | start =>
    cases h with
    | content ho => exact ⟨.start ho, .tag .start (by nofun) (by nofun)⟩
  | stop =>
    cases h with
    | tag hc hs _ => exact ⟨.stop hc hs, .content .stop⟩
  | void =>
    cases h with
    | tag hc hs _ => exact ⟨.void hc hs, .content .void⟩
  | name =>
    cases h with
    | tag hc hs hn => exact ⟨.name hc hs (hn rfl), .equals (by nofun)⟩
  | value =>
    cases h with
    | value hs hs' => exact ⟨.value hs hs', .tag .value (by nofun) (by nofun)⟩

/-- How a scan ends: with the text, or with a failure somewhere behind the last token. -/
inductive Ends (text : List Char) (a : Option Content) (done : List Char) (l : Location) :
    Option Failure → Prop
  | finished : Outside a → done = text → At done l → Ends text a done l none
  | failed {lead : List Char} {f : Failure} : At (done ++ lead) l →
      done ++ (lead ++ f.lexeme) <+: text → Ends text a done l (some f)

lemma walks_laid {mode : Mode} {s : Scan} (h : Walks mode cs s) (hp : Pending mode a gap)
    (hl : At (before ++ gap) l) :
    ∃ a' done, Laid a before (Piece.locate l s.pieces).1 a' done ∧
      Ends (before ++ (gap ++ cs)) a' done (Piece.locate l s.pieces).2 s.failure := by
  induction h generalizing a before gap l with
  | done =>
    cases hp with
    | content ho =>
      rw [List.append_nil] at hl
      exact ⟨a, before, .nil, .finished ho (by simp) hl⟩
  | @fail mode cs text f hf =>
    have ha := hl.after text
    rw [List.append_assoc] at ha
    exact ⟨a, before, .nil, .failed ha (by simpa using hf)⟩
  | @read mode next piece rest s ht hn _ ih =>
    have ha := hl.after piece.text
    rw [List.append_assoc] at ha
    cases piece with
    | token c part =>
      obtain ⟨hg, hq⟩ := hp.take_token ht
      obtain ⟨a', done, hts, hend⟩ := ih hq (by rwa [List.append_nil])
      have he : before ++ (gap ++ part) ++ ([] ++ rest) = before ++ (gap ++ (part ++ rest)) := by
        simp
      exact ⟨a', done, .cons hg hn hl ha hts, he ▸ hend⟩
    | gap part =>
      -- No token yet: what was read stays pending in front of the next one.
      obtain ⟨a', done, hts, hend⟩ := ih (hp.take_gap ht hn) ha
      rw [List.append_assoc] at hend
      exact ⟨a', done, hts, hend⟩

/-! ### Tokens in their order -/

structure Within (text : List Char) (s : Span) : Prop where
  start : ∃ before after, text = before ++ after ∧ At before s.start
  stop : ∃ before after, text = before ++ after ∧ At before s.stop
  ordered : s.start.offset ≤ s.stop.offset
  bounded : s.stop.offset ≤ (String.ofList text).utf8ByteSize

lemma within_of_at {part after : List Char} {s : Span} (h : text = before ++ (part ++ after))
    (hs : At before s.start) (ht : At (before ++ part) s.stop) : Within text s := by
  refine ⟨⟨before, _, h, hs⟩, ⟨before ++ part, after, by simp [h], ht⟩,
    (hs.notAfter_of_append ht).offset_le, ?_⟩
  rw [ht.offset, h]
  simp only [String.ofList_append, String.utf8ByteSize_append]
  omega

lemma Gap.ne_eof (h : Gap a c gap) : c ≠ .eof := by
  rintro rfl
  cases h with
  | single _ hc => cases hc

lemma Laid.isPrefix {done : List Char} (h : Laid a before ts a' done) : before <+: done := by
  induction h with
  | nil => exact List.prefix_rfl
  | cons _ _ _ _ _ ih => exact (List.prefix_append ..).trans ih

lemma Laid.mem {done : List Char} (h : Laid a before ts a' done) (ht : t ∈ ts) :
    t.content ≠ .eof ∧ ∃ x part y, done = x ++ (part ++ y) ∧ before <+: x ∧ part ≠ [] ∧
      At x t.span.start ∧ At (x ++ part) t.span.stop := by
  induction h with
  | nil => cases ht
  | @cons a a' before gap part done u ts hg hn hs he hl ih =>
    rcases List.mem_cons.mp ht with rfl | ht
    · obtain ⟨y, hy⟩ := hl.isPrefix
      refine ⟨hg.ne_eof, before ++ gap, part, y, ?_, List.prefix_append .., hn, hs, ?_⟩
      · simp [← hy]
      · rwa [List.append_assoc]
    · obtain ⟨hc, x, p, y, hd, hx, hp⟩ := ih ht
      exact ⟨hc, x, p, y, hd, (List.prefix_append ..).trans hx, hp⟩

structure InOrder (ts : List Token) : Prop where
  apart : ts.Pairwise fun t u => NotAfter t.span.stop u.span.start
  solid : ∀ t ∈ ts, Before t.span.start t.span.stop

lemma InOrder.sublist {us : List Token} (h : InOrder us) (hs : ts.Sublist us) : InOrder ts :=
  ⟨h.apart.sublist hs, fun t ht => h.solid t (hs.subset ht)⟩

lemma InOrder.of_append {us : List Token} (h : InOrder (ts ++ us)) : InOrder ts ∧ InOrder us :=
  ⟨h.sublist (List.sublist_append_left ..), h.sublist (List.sublist_append_right ..)⟩

lemma InOrder.notAfter {u : Token} {us : List Token} (h : InOrder (ts ++ us)) (ht : t ∈ ts)
    (hu : u ∈ us) : NotAfter t.span.stop u.span.start :=
  (List.pairwise_append.mp h.apart).2.2 t ht u hu

lemma InOrder.start_before {u : Token} {us : List Token} (h : InOrder (ts ++ us)) (ht : t ∈ ts)
    (hu : u ∈ us) : Before t.span.start u.span.stop := by
  have hs := (h.solid t (List.mem_append_left us ht)).trans_notAfter (h.notAfter ht hu)
  exact hs.trans (h.solid u (List.mem_append_right ts hu))

theorem Laid.inOrder {done : List Char} (h : Laid a before ts a' done) : InOrder ts := by
  refine ⟨?_, ?_⟩
  · induction h with
    | nil => exact .nil
    | cons _ _ _ he hl ih =>
      refine .cons ?_ ih
      intro u hu
      obtain ⟨-, x, part, y, -, ⟨z, rfl⟩, -, hs, -⟩ := hl.mem hu
      exact he.notAfter_of_append hs
  · intro t ht
    obtain ⟨-, x, part, y, -, -, hn, hs, he⟩ := h.mem ht
    exact hs.before_of_append he hn

lemma scan_laid (source : String) :
    let s := scan .content (Text.unifyBreakChars source.toList)
    ∃ a done, Laid none [] (Piece.locate {} s.pieces).1 a done ∧
      Ends (Text.unifyBreakChars source.toList) a done (Piece.locate {} s.pieces).2 s.failure := by
  have ho : At ([] ++ []) {} := at_origin
  exact walks_laid (scan_walks _ _) (.content .none) ho

theorem laid_of_no_fault {source : String} (h : (tokenize source).fault = none) :
    ∃ ts a stop, (tokenize source).tokens = ts ++ [⟨.eof, stop, stop⟩] ∧
      Laid none [] ts a (Text.unifyBreakChars source.toList) ∧ Outside a ∧
      At (Text.unifyBreakChars source.toList) stop := by
  obtain ⟨a, done, hl, he⟩ := scan_laid source
  rw [tokenize] at h ⊢
  generalize scan .content (Text.unifyBreakChars source.toList) = s at hl he h ⊢
  cases hf : s.failure with
  | none =>
    rw [hf] at he
    cases he with
    | finished ho hd ha =>
      subst hd
      exact ⟨_, a, _, by simp [Scan.tokens, hf], hl, ho, ha⟩
  | some f => simp [Scan.tokens, hf] at h

theorem laid_of_fault {source : String} {f : Fault} (h : (tokenize source).fault = some f) :
    ∃ ts a done lead lexeme,
      (tokenize source).tokens = ts ++ [⟨.eof, f.span.stop, f.span.stop⟩] ∧ Laid none [] ts a done ∧
      done ++ (lead ++ lexeme) <+: Text.unifyBreakChars source.toList ∧
      At (done ++ lead) f.span.start ∧ At (done ++ lead ++ lexeme) f.span.stop := by
  obtain ⟨a, done, hl, he⟩ := scan_laid source
  rw [tokenize] at h ⊢
  generalize scan .content (Text.unifyBreakChars source.toList) = s at hl he h ⊢
  cases hf : s.failure with
  | none => simp [Scan.tokens, hf] at h
  | some g =>
    rw [hf] at he
    obtain rfl : f = ⟨g.cause, _, _⟩ := by simpa [Scan.tokens, hf] using h.symm
    cases he with
    | failed ha hp => exact ⟨_, a, done, _, _, by simp [Scan.tokens, hf], hl, hp, ha, ha.after _⟩

lemma Laid.notAfter_stop {done rest : List Char} {stop : Location} (h : Laid none [] ts a done)
    (hs : At (done ++ rest) stop) (ht : t ∈ ts) : NotAfter t.span.stop stop := by
  obtain ⟨-, x, part, y, rfl, -, -, -, he⟩ := h.mem ht
  have hs' : At (x ++ part ++ (y ++ rest)) stop := by simpa using hs
  exact he.notAfter_of_append hs'

lemma Laid.within {done rest : List Char} {stop : Location} (h : Laid none [] ts a done)
    (hs : At (done ++ rest) stop) (hp : done ++ rest <+: text) :
    ∀ t ∈ ts ++ [⟨.eof, stop, stop⟩], Within text t.span := by
  obtain ⟨z, rfl⟩ := hp
  intro t ht
  rcases List.mem_append.mp ht with ht | ht
  · obtain ⟨-, x, part, y, rfl, -, -, hx, he⟩ := h.mem ht
    have hd : x ++ (part ++ y) ++ rest ++ z = x ++ (part ++ (y ++ (rest ++ z))) := by simp
    exact within_of_at hd hx he
  · obtain rfl := List.mem_singleton.mp ht
    have he : At (done ++ rest ++ []) stop := by rwa [List.append_nil]
    exact within_of_at rfl hs he

lemma Laid.pairwise {done rest : List Char} {stop : Location} (h : Laid none [] ts a done)
    (hs : At (done ++ rest) stop) :
    List.Pairwise (fun t u : Token => t.span.stop.offset ≤ u.span.start.offset)
      (ts ++ [⟨.eof, stop, stop⟩]) := by
  refine List.pairwise_append.mpr ⟨h.inOrder.apart.imp NotAfter.offset_le,
    List.pairwise_singleton .., ?_⟩
  intro t ht u hu
  obtain rfl := List.mem_singleton.mp hu
  exact (h.notAfter_stop hs ht).offset_le

/-- The tokens of a text end with the one end of file, at the place where the reading has stopped.
Each of them has a place in the text, as a fault has; they stand one behind the other, and none but
the last is empty. Without a fault they are all of the text, but for the gaps of start tags. -/
theorem tokens_located (source : String) :
    let text := Text.unifyBreakChars source.toList
    let r := tokenize source
    ∃ ts stop, r.tokens = ts ++ [⟨.eof, stop, stop⟩] ∧ (∀ t ∈ ts, t.content ≠ .eof) ∧
      (∀ f, r.fault = some f → f.span.stop = stop ∧ Within text f.span) ∧
      (∀ t ∈ r.tokens, Within text t.span) ∧
      (r.tokens.Pairwise fun t u => t.span.stop.offset ≤ u.span.start.offset) ∧
      (∀ t ∈ ts, t.span.start.offset < t.span.stop.offset) ∧
      (r.fault = none → At text stop ∧ ∃ a, Laid none [] ts a text ∧ Outside a) := by
  intro text r
  cases hf : r.fault with
  | none =>
    obtain ⟨ts, a, stop, ht, hl, ho, hs⟩ := laid_of_no_fault hf
    have hs' : At (text ++ []) stop := by rwa [List.append_nil]
    refine ⟨ts, stop, ht, fun t hm => (hl.mem hm).1, by nofun, ?_, ?_,
      fun t hm => (hl.inOrder.solid t hm).1, fun _ => ⟨hs, a, hl, ho⟩⟩
    · rw [ht]
      exact hl.within hs' (by simp [text])
    · rw [ht]
      exact hl.pairwise hs'
  | some f =>
    obtain ⟨ts, a, done, lead, lexeme, ht, hl, hp, hs, he⟩ := laid_of_fault hf
    have he' : At (done ++ (lead ++ lexeme)) f.span.stop := by rwa [← List.append_assoc]
    refine ⟨ts, f.span.stop, ht, fun t hm => (hl.mem hm).1, ?_, ?_, ?_,
      fun t hm => (hl.inOrder.solid t hm).1, by nofun⟩
    · rintro g hg
      cases hg
      obtain ⟨z, hz⟩ := hp
      have ht' : text = done ++ lead ++ (lexeme ++ z) := by simp [text, ← hz]
      exact ⟨rfl, within_of_at ht' hs he⟩
    · rw [ht]
      exact hl.within he' hp
    · rw [ht]
      exact hl.pairwise he'

theorem tokens_located_break :
    let text := Text.unifyBreakChars "<A\r\n  k = 'é'/>".toList
    (tokenize "<A\r\n  k = 'é'/>").fault = none ∧
      ∃ ts stop, (tokenize "<A\r\n  k = 'é'/>").tokens = ts ++ [⟨.eof, stop, stop⟩] ∧
        At text stop ∧ ∃ a, Laid none [] ts a text ∧ Outside a := by
  have hf : (tokenize "<A\r\n  k = 'é'/>").fault = none := by decide +kernel
  obtain ⟨ts, stop, ht, -, -, -, -, -, hl⟩ := tokens_located "<A\r\n  k = 'é'/>"
  exact ⟨hf, ts, stop, ht, hl hf⟩

end TuiMarkup.Proofs.TokenPlaces
