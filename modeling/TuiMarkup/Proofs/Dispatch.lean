import Mathlib.Data.List.Induction
import Mathlib.Tactic.Lemma
import TuiMarkup.Proofs.BindingWiring
import TuiMarkup.Proofs.Declarations

/-! What follows when the change of a member is announced: one case for each member, and in it each
assignment that reads the member. -/

namespace TuiMarkup.Proofs.Dispatch

open BindingWiring ClassText Declarations Printing Slots

/-! ### Cases -/

variable {ts : List Target} {t : Target}

def members (ts : List Target) : List String :=
  (ts.map (·.binding.member)).eraseDups

/-- The assignments of the targets that read a member, each at its first occurrence. -/
def assignments (ts : List Target) (member : String) : List String :=
  ((ts.filter (·.binding.member == member)).map fun t =>
    t.field ++ "." ++ t.property ++ " = " ++ t.binding.source ++ ";").eraseDups

lemma members_concat (ts : List Target) (t : Target) :
    members (ts ++ [t]) =
      if t.binding.member ∈ members ts then members ts else members ts ++ [t.binding.member] := by
  simp only [members, List.map_append, List.map_singleton, eraseDups_concat, List.mem_eraseDups]

lemma nodup_members (ts : List Target) : (members ts).Nodup :=
  nodup_eraseDups _

lemma assignments_concat (ts : List Target) (t : Target) (member : String) :
    assignments (ts ++ [t]) member =
      if member = t.binding.member then extend t.assignment (some (assignments ts member))
      else assignments ts member := by
  rw [assignments, List.filter_append, List.filter_singleton]
  by_cases hm : member = t.binding.member
  · have hb : (t.binding.member == member) = true := beq_iff_eq.mpr hm.symm
    rw [if_pos hm, hb, cond_true, List.map_append, List.map_singleton, eraseDups_concat, extend]
    simp only [assignments, Target.assignment, Option.getD_some, List.contains_iff_mem,
      List.mem_eraseDups]
  · have hb : (t.binding.member == member) = false := beq_eq_false_iff_ne.mpr (Ne.symm hm)
    rw [if_neg hm, hb, cond_false, List.append_nil, assignments]

lemma assignments_of_not_mem {member : String} (h : member ∉ members ts) :
    assignments ts member = [] := by
  rw [members, List.mem_eraseDups, List.mem_map] at h
  have hf : ts.filter (·.binding.member == member) = [] := by
    rw [List.filter_eq_nil_iff]
    exact fun t ht hm => h ⟨t, ht, beq_iff_eq.mp hm⟩
  rw [assignments, hf]
  rfl

lemma upsertEntries_map {α : Type} {ks : List String} (hn : ks.Nodup) (key : String)
    (f : Option α → α) (g : String → α) :
    Table.upsertEntries key f (ks.map fun k => (k, g k)) =
      if key ∈ ks then ks.map fun k => (k, if k = key then f (some (g k)) else g k)
      else ks.map (fun k => (k, g k)) ++ [(key, f none)] := by
  induction ks with
  | nil => rfl
  | cons k ks ih =>
    obtain ⟨hk, hks⟩ := List.nodup_cons.mp hn
    rw [List.map_cons, Table.upsertEntries]
    by_cases hx : k = key
    · subst hx
      rw [if_pos rfl, if_pos List.mem_cons_self, List.map_cons, if_pos rfl]
      congr 1
      refine List.map_congr_left fun x hm => ?_
      rw [if_neg (ne_of_mem_of_not_mem hm hk)]
    · rw [if_neg hx, ih hks]
      by_cases hm : key ∈ ks <;> simp [hm, hx, Ne.symm hx]

lemma addCase_entries {cases : Table (List String)}
    (h : cases.entries = (members ts).map fun m => (m, assignments ts m)) (t : Target) :
    (Wiring.addCase cases t).entries =
      (members (ts ++ [t])).map fun m => (m, assignments (ts ++ [t]) m) := by
  have ha : (Wiring.addCase cases t).entries =
      Table.upsertEntries t.binding.member (extend t.assignment) cases.entries := rfl
  rw [ha, h, upsertEntries_map (nodup_members ts), members_concat]
  -- a member that is there keeps its place, and a new one comes last
  by_cases hm : t.binding.member ∈ members ts
  · rw [if_pos hm, if_pos hm]
    exact List.map_congr_left fun m _ => by rw [assignments_concat]
  · rw [if_neg hm, if_neg hm, List.map_append, List.map_singleton, assignments_concat, if_pos rfl,
      assignments_of_not_mem hm]
    congr 1
    refine List.map_congr_left fun m hs => ?_
    rw [assignments_concat, if_neg (ne_of_mem_of_not_mem hs hm)]

theorem foldl_addCase (ts : List Target) :
    (ts.foldl Wiring.addCase {}).entries =
      (members ts).map fun m => (m, assignments ts m) := by
  induction ts using List.reverseRecOn with
  | nil => rfl
  | append_singleton ts t ih =>
    rw [List.foldl_append]
    exact addCase_entries ih t

/-! ### The dispatcher -/

def refreshed (bound : List BoundControl) : List Target :=
  (targets bound).filter (!·.isCommand)

lemma make_cases (catalog : Catalog) (context : Option String) (bound : List BoundControl) :
    (Wiring.make catalog context bound).cases.entries =
      (members (refreshed bound)).map fun m => (m, assignments (refreshed bound) m) :=
  foldl_addCase (refreshed bound)

lemma two_steps (indent : UInt64) : indent + 1 + 1 = indent + 2 :=
  UInt64.add_assoc indent 1 1

lemma three_steps (indent : UInt64) : indent + 2 + 1 = indent + 3 :=
  UInt64.add_assoc indent 2 1

def caseLines (indent : UInt64) (member : String) (codes : List String) : List Line :=
  ⟨"case \"" ++ member ++ "\":", indent⟩ ::
    (codes.map (⟨·, indent + 1⟩) ++ [⟨"break;", indent + 1⟩])

lemma linesAll_dispatchCase (indent : UInt64) (member : String) (codes : List String) :
    linesAll indent (ClassFile.dispatchCase member codes) = caseLines indent member codes := by
  simp [ClassFile.dispatchCase, linesAll, lines, linesAll_append, linesAll_lines, caseLines]

lemma linesAll_dispatcher (indent : UInt64) (w : Wiring) :
    linesAll indent (ClassFile.dispatcher w) =
      [⟨"private void OnViewModelPropertyChanged(object? sender, PropertyChangedEventArgs e)",
          indent⟩,
        ⟨"\x7b", indent⟩, ⟨"switch (e.PropertyName)", indent + 1⟩, ⟨"\x7b", indent + 1⟩] ++
      w.cases.entries.flatMap (fun c => caseLines (indent + 2) c.1 c.2) ++
      [⟨"\x7d", indent + 1⟩, ⟨"\x7d", indent⟩] := by
  have hc : linesAll (indent + 2)
      (w.cases.entries.flatMap fun c => ClassFile.dispatchCase c.1 c.2) =
        w.cases.entries.flatMap fun c => caseLines (indent + 2) c.1 c.2 := by
    rw [linesAll_flatMap]
    simp only [linesAll_dispatchCase]
  rw [ClassFile.dispatcher, linesAll_braced, linesAll_braced, two_steps, hc]
  simp [ClassFile.changeHandler]

/-! ### Assignments at first and after changes -/

lemma mem_cases {code : String} :
    (∃ m ∈ members ts, code ∈ assignments ts m) ↔ ∃ t ∈ ts, t.assignment = code := by
  simp only [members, assignments, List.mem_eraseDups, List.mem_map, List.mem_filter, beq_iff_eq]
  constructor
  · rintro ⟨m, -, t, ⟨ht, -⟩, hc⟩
    exact ⟨t, ht, hc⟩
  · rintro ⟨t, ht, hc⟩
    exact ⟨_, ⟨t, ht, rfl⟩, t, ⟨ht, rfl⟩, hc⟩

lemma initial_line {step : List Layout} (h : Initial t step) (code : String) :
    [.line code] = step ↔ t.isCommand = false ∧ t.assignment = code := by
  cases h with
  | assignment hc => simp [hc, Target.assignment, eq_comm]
  | activation hc => simp [hc]

lemma mem_initial {steps : List (List Layout)} (h : List.Forall₂ Initial ts steps) (code : String) :
    [.line code] ∈ steps ↔ ∃ t ∈ ts.filter (!·.isCommand), t.assignment = code := by
  induction h with
  | nil => simp
  | @cons t step ts steps hs _ ih =>
    rw [List.mem_cons, ih, initial_line hs]
    cases hc : t.isCommand <;> simp [hc]

lemma targets_eq {catalog : Catalog} {context : Option String} {fields : Fields} {tags : List Tag}
    {bound : List BoundControl} (h : boundControls catalog context fields tags = .ok bound) :
    targets bound = tags.flatMap fun t => (boundProperties catalog context t).map fun q =>
      ⟨t.type, called fields t.index, q.property, q.binding, q.isCommand⟩ := by
  induction tags generalizing bound with
  | nil =>
    cases h
    rfl
  | cons t tags ih =>
    rw [boundControls] at h
    split at h
    next he =>
      rw [List.flatMap_cons, List.isEmpty_iff.mp he, ih h]
      rfl
    · cases hf : fields.reference t.index with
      | error f =>
        rw [hf] at h
        cases h
      | ok field =>
        cases hb : boundControls catalog context fields tags with
        | error f =>
          rw [hf, hb] at h
          cases h
        | ok rest =>
          have hn : called fields t.index = field := by
            rw [called, hf]
            rfl
          rw [hf, hb] at h
          cases h
          rw [List.flatMap_cons, hn, ← ih hb]
          rfl

/-- The dispatcher has one case for each member that is read by something that can be assigned, in
the order of their first occurrence. The case makes the assignments that read the member, in
document order and each of them once. All cases together make the assignments that are made when the
bindings are set up. -/
theorem dispatch_grouped (catalog : Catalog) (context : Option String) {fields : Fields}
    {tags : List Tag} {bound : List BoundControl}
    (h : boundControls catalog context fields tags = .ok bound) :
    let w := Wiring.make catalog context bound
    (targets bound = tags.flatMap fun t => (boundProperties catalog context t).map fun q =>
      ⟨t.type, called fields t.index, q.property, q.binding, q.isCommand⟩) ∧
    (∀ p : Page, p.indent.toNat + 3 < 2 ^ 64 → ∃ q, ClassFile.printDispatcher p.blank w = .ok q ∧
      q.lines = p.lines ++
        [⟨"private void OnViewModelPropertyChanged(object? sender, PropertyChangedEventArgs e)",
            p.indent⟩,
          ⟨"\x7b", p.indent⟩, ⟨"switch (e.PropertyName)", p.indent + 1⟩, ⟨"\x7b", p.indent + 1⟩] ++
        (members (refreshed bound)).flatMap (fun m =>
          ⟨"case \"" ++ m ++ "\":", p.indent + 2⟩ ::
            ((assignments (refreshed bound) m).map (⟨·, p.indent + 3⟩) ++
              [⟨"break;", p.indent + 3⟩])) ++
        [⟨"\x7d", p.indent + 1⟩, ⟨"\x7d", p.indent⟩, ⟨"", p.indent⟩]) ∧
    (members (refreshed bound)).Nodup ∧ (∀ m, (assignments (refreshed bound) m).Nodup) ∧
    ∃ steps, List.Forall₂ Initial (targets bound) steps ∧
      (∀ p, ClassFile.printSetup p w = Layout.printAll p (ClassFile.setup w)) ∧
      ClassFile.setup w = Layout.braced "private void SetupBindings()"
        ((w.source.map ClassFile.guardSource).getD [] ++ steps.flatten ++
          [.blank, .line "// Subscribe to property changes",
            .line ((w.source.map (· ++ ".")).getD "" ++ "PropertyChanged += " ++
              "OnViewModelPropertyChanged" ++ ";")] ++
          w.reverses.map ClassFile.reverseSubscription ++
          w.commands.flatMap ClassFile.enabling) ∧
      ∀ code, [.line code] ∈ steps ↔
        ∃ m ∈ members (refreshed bound), code ∈ assignments (refreshed bound) m := by
  intro w
  have hs : List.Forall₂ Initial (targets bound) ((targets bound).map ClassFile.initialStep) :=
    forall₂_map fun t _ => initialStep_initial t
  refine ⟨targets_eq h, ?_, nodup_members _, fun m => nodup_eraseDups _, _, hs,
    fun p => ClassFile.printSetup_eq p w, ?_, ?_⟩
  · intro p hp
    have hr : Room p.indent 3 := hp
    obtain ⟨q, hq, hl⟩ := lines_printAll (hr.mono (depth_dispatcher w))
    rw [ClassFile.printDispatcher_eq]
    refine ⟨q, hq, ?_⟩
    rw [hl, linesAll_dispatcher, make_cases, List.flatMap_map]
    simp [caseLines, three_steps]
  · rw [ClassFile.setup, List.flatMap_def]
    rfl
  · intro code
    rw [mem_initial hs, mem_cases]
    rfl

/-! Two controls of one name, bound to the same member, next to a command and to a member of the
same name elsewhere. -/

def panelCatalog : Catalog where
  scopes := ⟨[("Common", ⟨[("Command", .command)]⟩)]⟩

def panelTags : List Tag :=
  [⟨0, "Window", [⟨"Title", "\x7bBind Model.Name\x7d", .property, Accounting.nowhere⟩], 1, 1,
      Accounting.nowhere⟩,
    ⟨1, "Label",
      [⟨"Command", "\x7bBind Save\x7d", .property, Accounting.nowhere⟩,
        ⟨"Text", "\x7bBind Name\x7d", .property, Accounting.nowhere⟩], 1, 1, Accounting.nowhere⟩,
    ⟨2, "Label",
      [⟨"Text", "\x7bBind Name\x7d", .property, Accounting.nowhere⟩,
        ⟨"Width", "\x7bBind Size\x7d", .property, Accounting.nowhere⟩], 1, 1, Accounting.nowhere⟩]

def panelFields : Fields :=
  ⟨[⟨0, "this", none, "W"⟩, ⟨1, "a", some "a", "L"⟩, ⟨2, "a", some "a", "L"⟩]⟩

theorem dispatch_grouped_panel :
    ∃ bound, boundControls panelCatalog (some "Vm") panelFields panelTags = .ok bound ∧
      ∃ q, ClassFile.printDispatcher (Page.new 0).blank
          (Wiring.make panelCatalog (some "Vm") bound) = .ok q ∧
        (q.lines.map (·.text)).drop 5 =
          ["case \"Name\":", "this.Title = Model.Name;", "a.Text = Vm.Name;", "break;",
            "case \"Size\":", "a.Width = Vm.Size;", "break;", "\x7d", "\x7d", ""] := by
  have hc : ∀ t ∈ panelTags, Covers panelFields t := by
    simp [panelTags, panelFields, Covers, Fields.slot]
  have hb := Generation.boundControls_eq panelCatalog (some "Vm") hc
  obtain ⟨-, hp, -⟩ := dispatch_grouped panelCatalog (some "Vm") hb
  obtain ⟨q, hq, hl⟩ := hp (Page.new 0) (by decide)
  refine ⟨_, hb, q, hq, ?_⟩
  rw [hl]
  decide +kernel

end TuiMarkup.Proofs.Dispatch
