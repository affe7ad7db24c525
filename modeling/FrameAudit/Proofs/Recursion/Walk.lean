import FrameAudit.Proofs.Recursion.OwnReports
import Mathlib.Logic.Function.Basic

/-! # Walks through the calls of a table

`BehaviourTable.Walk` follows the calls of a frame, without frames and ledgers: which callees are
being analysed, restored or analysed anew, which tips they give, and what is kept of them. A run is
a sequence of such walks, one for each entry (`BehaviourTable.Runs`).

A callee that calls back into the stack is kept without what is found there later. So what is kept
of a call need not be all that is possible beneath it. It is in a region where signatures call back
only to themselves (`Walk.whole`), and then a walk in that region finds on top of it whatever it
finds without it (`Walk.lockstep`). In any case all tips but those of one kind are found somewhere
(`Walk.accounts`). -/

namespace FrameAudit.BehaviourTable

/-- The tips of the calls that are kept. -/
abbrev Kept := Signature → Option (Set Tip)

variable (table : BehaviourTable)

def callees (signature : Signature) : List Signature := (table.get signature).calls.map Prod.snd

/-- No body can be generated. -/
def Fails (signature : Signature) : Prop :=
  ∃ position error, table.get signature = .failure position error

open Classical in
/-- What is kept after a frame was analysed. -/
noncomputable def keep (signature : Signature) (found : Set Tip) (kept : Kept) : Kept :=
  if table.Fails signature then kept else Function.update kept signature (some found)

/-- The calls are made one after the other from a frame at the end of the stack. -/
inductive Walk : List Signature → Kept → List Signature → Set Tip → Kept → Prop where
  | nil (stack : List Signature) (kept : Kept) : Walk stack kept [] ∅ kept
  | cycle {stack : List Signature} {kept kept' : Kept} {callee : Signature}
      {rest : List Signature} {found : Set Tip} :
    callee ∈ stack → Walk stack kept rest found kept' → Walk stack kept (callee :: rest) found kept'
  | restored {stack : List Signature} {kept kept' : Kept} {callee : Signature}
      {rest : List Signature} {known found : Set Tip} :
    callee ∉ stack → kept callee = some known → Walk stack kept rest found kept' →
      Walk stack kept (callee :: rest) (known ∪ found) kept'
  | analysed {stack : List Signature} {kept kept₁ kept' : Kept} {callee : Signature}
      {rest : List Signature} {inner found : Set Tip} :
    callee ∉ stack → kept callee = none →
      Walk (callee :: stack) kept (table.callees callee) inner kept₁ →
      Walk stack (table.keep callee (table.own (callee :: stack) callee ∪ inner) kept₁) rest found
        kept' →
      Walk stack kept (callee :: rest) (table.own (callee :: stack) callee ∪ inner ∪ found) kept'

/-- Entries are analysed one after the other. -/
inductive Runs : Kept → List Signature → Set Tip → Kept → Prop where
  | nil (kept : Kept) : Runs kept [] ∅ kept
  | entry {kept kept₁ kept' : Kept} {entry : Signature} {rest : List Signature}
      {inner found : Set Tip} :
    table.Walk [entry] kept (table.callees entry) inner kept₁ → Runs kept₁ rest found kept' →
      Runs kept (entry :: rest) (table.own [entry] entry ∪ inner ∪ found) kept'

/-- Calls lead from one signature to another. -/
abbrev Reaches : Signature → Signature → Prop := Relation.ReflTransGen table.Calls

/-- The tips that are possible beneath a signature. -/
def Possible (signature : Signature) : Set Tip :=
  {t | ∃ last, table.Reaches signature last ∧ t ∈ table.own [last] last}

/-- The tips that are possible beneath some calls. -/
def PossibleIn (calls : List Signature) : Set Tip :=
  {t | ∃ callee ∈ calls, t ∈ table.Possible callee}

variable {table} {stack calls entries : List Signature} {kept kept' : Kept} {found : Set Tip}
  {signature callee : Signature}

theorem mem_callees : callee ∈ table.callees signature ↔ table.Calls signature callee := Iff.rfl

theorem callees_of_fails (h : table.Fails signature) : table.callees signature = [] := by
  obtain ⟨position, error, h⟩ := h
  rw [callees, h]
  rfl

theorem not_fails {statements : List Statement} {value : Ty} {body : List Instruction}
    {refined : Option Ty} (h : table.get signature = .body statements value body refined) :
    ¬table.Fails signature := by
  rintro ⟨position, error, hfails⟩
  cases h.symm.trans hfails

theorem keep_of_fails (h : table.Fails signature) (found : Set Tip) (kept : Kept) :
    table.keep signature found kept = kept := if_pos h

theorem keep_self (h : ¬table.Fails signature) (found : Set Tip) (kept : Kept) :
    table.keep signature found kept signature = some found := by
  rw [keep, if_neg h, Function.update_self]

theorem keep_of_ne (h : callee ≠ signature) (found : Set Tip) (kept : Kept) :
    table.keep signature found kept callee = kept callee := by
  unfold keep
  split
  · rfl
  · rw [Function.update_of_ne h]

theorem keep_eq_some {t : Set Tip} (h : table.keep signature found kept callee = some t) :
    kept callee = some t ∨ callee = signature ∧ ¬table.Fails signature ∧ t = found := by
  by_cases hf : table.Fails signature
  · exact .inl (keep_of_fails hf found kept ▸ h)
  · by_cases hc : callee = signature
    · rw [hc, keep_self hf] at h
      exact .inr ⟨hc, hf, (Option.some.inj h).symm⟩
    · exact .inl (keep_of_ne hc found kept ▸ h)

/-- What was kept before a signature that was not is kept besides it. -/
theorem keep_eq_some_of_none {s : Signature} {t : Set Tip} (hnone : kept signature = none)
    (hs : kept s = some t) (hs' : kept' s = some t) :
    table.keep signature found kept' s = some t := by
  have hne : s ≠ signature := by
    rintro rfl
    cases hnone.symm.trans hs
  exact (keep_of_ne hne ..).trans hs'

theorem possible_of_calls (h : table.Calls signature callee) :
    table.Possible callee ⊆ table.Possible signature :=
  fun _ ⟨last, hreach, ht⟩ => ⟨last, hreach.head h, ht⟩

/-- What is reported in the frame of a signature is possible. -/
theorem own_subset_possible (h : signature ∈ stack) :
    table.own stack signature ⊆ table.Possible signature := by
  refine fun t ht => ⟨signature, .refl, own_anti ht fun _ s hs => ?_⟩
  rwa [List.mem_singleton.1 hs]

/-- What is found when a signature is analysed is possible. -/
theorem analysed_subset_possible (stack : List Signature) {inner : Set Tip}
    (h : inner ⊆ table.PossibleIn (table.callees signature)) :
    table.own (signature :: stack) signature ∪ inner ⊆ table.Possible signature := by
  rintro t (ht | ht)
  · exact own_subset_possible List.mem_cons_self ht
  · obtain ⟨callee, hmem, hp⟩ := h ht
    exact possible_of_calls (mem_callees.1 hmem) hp

theorem possibleIn_cons : table.PossibleIn (callee :: calls) =
    table.Possible callee ∪ table.PossibleIn calls := by
  ext t
  constructor
  · rintro ⟨next, hmem, hp⟩
    rcases List.mem_cons.1 hmem with rfl | hmem
    · exact .inl hp
    · exact .inr ⟨next, hmem, hp⟩
  · rintro (hp | ⟨next, hmem, hp⟩)
    · exact ⟨callee, List.mem_cons_self, hp⟩
    · exact ⟨next, List.mem_cons_of_mem _ hmem, hp⟩

/-! ## Everything found is possible -/

/-- What is kept is possible. -/
def Within (table : BehaviourTable) (kept : Kept) : Prop :=
  ∀ ⦃signature t⦄, kept signature = some t → t ⊆ table.Possible signature

theorem Within.of_none (h : ∀ signature, kept signature = none) : table.Within kept :=
  fun _ _ hk => nomatch (h _).symm.trans hk

theorem Within.keep (h : table.Within kept) (hfound : found ⊆ table.Possible signature) :
    table.Within (table.keep signature found kept) := by
  intro callee t hk
  rcases keep_eq_some hk with hk | ⟨rfl, -, rfl⟩
  · exact h hk
  · exact hfound

namespace Walk

theorem within (h : table.Walk stack kept calls found kept') (hw : table.Within kept) :
    table.Within kept' ∧ found ⊆ table.PossibleIn calls := by
  induction h with
  | nil => exact ⟨hw, Set.empty_subset _⟩
  | cycle _ _ ih =>
    obtain ⟨hw', hfound⟩ := ih hw
    rw [possibleIn_cons]
    exact ⟨hw', hfound.trans Set.subset_union_right⟩
  | restored _ hk _ ih =>
    obtain ⟨hw', hfound⟩ := ih hw
    rw [possibleIn_cons]
    exact ⟨hw', Set.union_subset_union (hw hk) hfound⟩
  | @analysed stack _ _ _ _ _ _ _ _ _ _ _ ih₁ ih₂ =>
    obtain ⟨hw₁, hinner⟩ := ih₁ hw
    have hpossible := analysed_subset_possible stack hinner
    obtain ⟨hw', hfound⟩ := ih₂ (hw₁.keep hpossible)
    rw [possibleIn_cons]
    exact ⟨hw', Set.union_subset_union hpossible hfound⟩

/-! ## What is kept -/

theorem extends_kept (h : table.Walk stack kept calls found kept') {t : Set Tip}
    (hk : kept signature = some t) : kept' signature = some t := by
  induction h with
  | nil => exact hk
  | cycle _ _ ih | restored _ _ _ ih => exact ih hk
  | analysed _ hnone _ _ ih₁ ih₂ => exact ih₂ (keep_eq_some_of_none hnone hk (ih₁ hk))

/-- What is kept anew has a body and is reached by the calls. -/
theorem kept_cases (h : table.Walk stack kept calls found kept') {t : Set Tip}
    (hk : kept' signature = some t) : kept signature = some t ∨
      ¬table.Fails signature ∧ ∃ callee ∈ calls, table.Reaches callee signature := by
  induction h with
  | nil => exact .inl hk
  | cycle _ _ ih | restored _ _ _ ih =>
    refine (ih hk).imp_right fun ⟨hf, next, hmem, hreach⟩ => ?_
    exact ⟨hf, next, List.mem_cons_of_mem _ hmem, hreach⟩
  | @analysed _ _ _ _ callee _ _ _ _ _ _ _ ih₁ ih₂ =>
    rcases ih₂ hk with hk | ⟨hf, next, hmem, hreach⟩
    · rcases keep_eq_some hk with hk | ⟨rfl, hf, -⟩
      · refine (ih₁ hk).imp_right fun ⟨hf, next, hmem, hreach⟩ => ?_
        exact ⟨hf, callee, List.mem_cons_self, hreach.head (mem_callees.1 hmem)⟩
      · exact .inr ⟨hf, _, List.mem_cons_self, .refl⟩
    · exact .inr ⟨hf, next, List.mem_cons_of_mem _ hmem, hreach⟩

end Walk

/-! ## Everything that was visited is accounted for -/

/-- All visited signatures have their tips of other kinds among those found so far, and call only
visited ones and such that are on the stack. All calls that are kept were visited. -/
structure Accounts (table : BehaviourTable) (visited : Set Signature) (found : Set Tip)
    (stack : List Signature) (kept : Kept) : Prop where
  kept : ∀ ⦃signature t⦄, kept signature = some t → signature ∈ visited
  own : ∀ signature ∈ visited, ∀ t ∈ table.own [signature] signature, t.1 ≠ .invalidInvoke →
    t ∈ found
  calls : ∀ signature ∈ visited, ∀ callee, table.Calls signature callee →
    callee ∈ visited ∨ callee ∈ stack

namespace Accounts

variable {visited : Set Signature} {before : Set Tip}

theorem of_none (h : ∀ signature, kept signature = none) : table.Accounts ∅ found stack kept where
  kept _ _ hk := nomatch (h _).symm.trans hk
  own _ hs := absurd hs (Set.notMem_empty _)
  calls _ hs := absurd hs (Set.notMem_empty _)

theorem mono (h : table.Accounts visited before stack kept) (hsub : before ⊆ found) :
    table.Accounts visited found stack kept :=
  ⟨h.kept, fun s hs t ht hkind => hsub (h.own s hs t ht hkind), h.calls⟩

/-- A frame is put on the stack. -/
theorem push (h : table.Accounts visited before stack kept) (signature : Signature) :
    table.Accounts visited before (signature :: stack) kept :=
  ⟨h.kept, h.own, fun s hs callee hcall => (h.calls s hs callee hcall).imp_right
    (List.mem_cons_of_mem _)⟩

/-- The frame at the end of the stack is through, with all its callees visited. -/
theorem pop {inner : Set Tip}
    (h : table.Accounts visited (before ∪ inner) (signature :: stack) kept)
    (hcalls : ∀ callee, table.Calls signature callee →
      callee ∈ visited ∨ callee ∈ signature :: stack)
    (hkept : ∀ ⦃s t⦄, kept' s = some t → kept s = some t ∨ s = signature) :
    table.Accounts (insert signature visited)
      (before ∪ (table.own (signature :: stack) signature ∪ inner)) stack kept' := by
  refine ⟨fun s t hk => ?_, fun s hs t ht hkind => ?_, fun s hs callee hcall => ?_⟩
  · rcases hkept hk with hk | rfl
    · exact .inr (h.kept hk)
    · exact .inl rfl
  · rcases hs with rfl | hs
    · exact .inr (.inl (own_anti ht fun hinvoke => absurd hinvoke hkind))
    · exact (h.own s hs t ht hkind).imp_right .inr
  · have hnext : callee ∈ visited ∨ callee ∈ signature :: stack := by
      rcases hs with rfl | hs
      · exact hcalls callee hcall
      · exact h.calls s hs callee hcall
    rcases hnext with hv | hs
    · exact .inl (.inr hv)
    · rcases List.mem_cons.1 hs with rfl | hs
      · exact .inl (.inl rfl)
      · exact .inr hs

end Accounts

/-- After a walk all its calls were visited, unless they are on the stack. -/
theorem Walk.accounts {visited : Set Signature} {before : Set Tip}
    (h : table.Walk stack kept calls found kept') (ha : table.Accounts visited before stack kept) :
    ∃ visited', visited ⊆ visited' ∧ table.Accounts visited' (before ∪ found) stack kept' ∧
      ∀ callee ∈ calls, callee ∈ visited' ∨ callee ∈ stack := by
  induction h generalizing visited before with
  | nil =>
    exact ⟨visited, subset_rfl, ha.mono Set.subset_union_left,
      fun callee hmem => absurd hmem List.not_mem_nil⟩
  | cycle hs _ ih =>
    obtain ⟨visited', hsub, ha', hcalls⟩ := ih ha
    exact ⟨visited', hsub, ha', List.forall_mem_cons.2 ⟨.inr hs, hcalls⟩⟩
  | restored _ hk _ ih =>
    obtain ⟨visited', hsub, ha', hcalls⟩ := ih ha
    refine ⟨visited', hsub, ha'.mono ?_, List.forall_mem_cons.2 ⟨?_, hcalls⟩⟩
    · exact Set.union_subset_union_right _ Set.subset_union_right
    · exact .inl (hsub (ha.kept hk))
  | @analysed _ _ _ _ callee _ _ _ _ _ _ _ ih₁ ih₂ =>
    -- the callee is visited only when its frame is through, and on the stack until then
    obtain ⟨visited₁, hsub₁, ha₁, hcalls₁⟩ := ih₁ (ha.push callee)
    obtain ⟨visited', hsub, ha', hcalls⟩ :=
      ih₂ (ha₁.pop hcalls₁ fun s t hk => (keep_eq_some hk).imp_right And.left)
    refine ⟨visited', (hsub₁.trans (Set.subset_insert ..)).trans hsub, ?_,
      List.forall_mem_cons.2 ⟨.inl (hsub (Set.mem_insert ..)), hcalls⟩⟩
    rwa [Set.union_assoc before] at ha'

/-! ## Calls that are kept whole -/

/-- No other signature calls back, directly or through others. -/
def Solitary (table : BehaviourTable) (signature : Signature) : Prop :=
  ∀ ⦃other⦄, table.Reaches signature other → table.Reaches other signature → other = signature

/-- Calls do not lead out of the region. -/
def Closed (table : BehaviourTable) (region : Set Signature) : Prop :=
  ∀ ⦃signature last⦄, signature ∈ region → table.Reaches signature last → last ∈ region

/-- What is reached from a signature is found and kept. -/
def FoundIn (table : BehaviourTable) (found : Set Tip) (kept : Kept) (signature : Signature) :
    Prop :=
  ∀ ⦃last⦄, table.Reaches signature last →
    table.own [last] last ⊆ found ∧ (¬table.Fails last → (kept last).isSome)

/-- Each call of the region is kept with all that is possible beneath it, and all calls beneath it
are kept. -/
def Whole (table : BehaviourTable) (region : Set Signature) (kept : Kept) : Prop :=
  ∀ ⦃signature t⦄, signature ∈ region → kept signature = some t → table.FoundIn t kept signature

variable {region : Set Signature}

theorem FoundIn.mono {found' : Set Tip} (h : table.FoundIn found kept signature)
    (hfound : found ⊆ found') (hkept : ∀ s, (kept s).isSome → (kept' s).isSome) :
    table.FoundIn found' kept' signature :=
  fun _ hreach => ⟨(h hreach).1.trans hfound, fun hf => hkept _ ((h hreach).2 hf)⟩

/-- A signature leads to others through a callee other than itself. -/
theorem exists_callee_of_reaches {last : Signature} (h : table.Reaches signature last)
    (hne : last ≠ signature) : ∃ callee, table.Calls signature callee ∧ callee ≠ signature ∧
      table.Reaches callee last := by
  induction h using Relation.ReflTransGen.head_induction_on with
  | refl => exact absurd rfl hne
  | @head a c hcall hreach ih =>
    by_cases hc : c = a
    · subst hc
      exact ih hne
    · exact ⟨c, hcall, hc, hreach⟩

theorem isSome_keep {s : Signature} (h : (kept s).isSome) (found : Set Tip) :
    (table.keep signature found kept s).isSome := by
  by_cases hs : s = signature
  · subst hs
    by_cases hf : table.Fails s
    · rwa [keep_of_fails hf]
    · rw [keep_self hf]
      rfl
  · rwa [keep_of_ne hs]

/-- The frame of a signature is through and everything beneath its other callees is found: then the
same holds of the signature. -/
theorem FoundIn.of_callees {own inner : Set Tip} (hown : table.own [signature] signature ⊆ own)
    (h : ∀ callee, table.Calls signature callee → callee ≠ signature →
      table.FoundIn inner kept callee) :
    table.FoundIn (own ∪ inner) (table.keep signature (own ∪ inner) kept) signature := by
  intro last hreach
  by_cases hlast : last = signature
  · subst hlast
    refine ⟨hown.trans Set.subset_union_left, fun hf => ?_⟩
    rw [keep_self hf]
    rfl
  · obtain ⟨callee, hcall, hne, hreach⟩ := exists_callee_of_reaches hreach hlast
    obtain ⟨hfound, hkept⟩ := h callee hcall hne hreach
    exact ⟨hfound.trans Set.subset_union_right, fun hf => isSome_keep (hkept hf) _⟩

theorem Whole.of_none (h : ∀ signature, kept signature = none) : table.Whole region kept :=
  fun _ _ _ hk => nomatch (h _).symm.trans hk

theorem Whole.keep (h : table.Whole region kept) (hfound : signature ∈ region →
    table.FoundIn found (table.keep signature found kept) signature) :
    table.Whole region (table.keep signature found kept) := by
  intro s t hs hk
  rcases keep_eq_some hk with hk | ⟨rfl, -, rfl⟩
  · exact (h hs hk).mono subset_rfl fun _ hs => isSome_keep hs _
  · exact hfound hs

namespace Walk

/-- The stack leads to the calls, and what these reach in the region is solitary. -/
structure Clear (table : BehaviourTable) (region : Set Signature) (stack calls : List Signature) :
    Prop where
  reached : ∀ s ∈ stack, ∀ callee ∈ calls, table.Reaches s callee
  solitary : ∀ callee ∈ calls, ∀ last ∈ region, table.Reaches callee last → table.Solitary last

namespace Clear

theorem of_cons {rest : List Signature} (h : Clear table region stack (callee :: rest)) :
    Clear table region stack rest :=
  ⟨fun s hs next hmem => h.reached s hs next (List.mem_cons_of_mem _ hmem),
    fun next hmem => h.solitary next (List.mem_cons_of_mem _ hmem)⟩

/-- A callee is put on the stack. -/
theorem push (h : Clear table region stack calls) (hcallee : callee ∈ calls) :
    Clear table region (callee :: stack) (table.callees callee) := by
  refine ⟨fun s hs next hmem => ?_, fun next hmem last hlast hreach => ?_⟩
  · rcases List.mem_cons.1 hs with rfl | hs
    · exact .single (mem_callees.1 hmem)
    · exact (h.reached s hs callee hcallee).tail (mem_callees.1 hmem)
  · exact h.solitary callee hcallee last hlast (hreach.head (mem_callees.1 hmem))

/-- From the region, the calls lead back to the stack only where they are on it themselves. -/
theorem not_mem_stack (h : Clear table region stack calls) (hcallee : callee ∈ calls)
    (hregion : callee ∈ region) (hnot : callee ∉ stack) {last : Signature}
    (hreach : table.Reaches callee last) : last ∉ stack := by
  intro hlast
  have hback := h.reached last hlast callee hcallee
  have heq := h.solitary callee hcallee callee hregion .refl hreach hback
  exact hnot (heq ▸ hlast)

end Clear

theorem whole (h : table.Walk stack kept calls found kept') (hregion : table.Closed region)
    (hclear : Clear table region stack calls) (hw : table.Whole region kept) :
    table.Whole region kept' ∧
      ∀ callee ∈ calls, callee ∈ region → callee ∉ stack → table.FoundIn found kept' callee := by
  induction h with
  | nil => exact ⟨hw, fun callee hmem => absurd hmem List.not_mem_nil⟩
  | cycle hs _ ih =>
    obtain ⟨hw', hfound⟩ := ih hclear.of_cons hw
    exact ⟨hw', List.forall_mem_cons.2 ⟨fun _ hnot => absurd hs hnot, hfound⟩⟩
  | restored _ hk hrest ih =>
    obtain ⟨hw', hfound⟩ := ih hclear.of_cons hw
    refine ⟨hw', List.forall_mem_cons.2 ⟨fun hr _ => ?_, fun callee hmem hr hnot => ?_⟩⟩
    · exact (hw' hr (hrest.extends_kept hk)).mono Set.subset_union_left fun _ hs => hs
    · exact (hfound callee hmem hr hnot).mono Set.subset_union_right fun _ hs => hs
  | @analysed stack kept kept₁ kept' callee rest inner found hnot _ _ hrest ih₁ ih₂ =>
    obtain ⟨hw₁, hinner⟩ := ih₁ (hclear.push List.mem_cons_self) hw
    let whole := table.own (callee :: stack) callee ∪ inner
    have hcallee : callee ∈ region →
        table.FoundIn whole (table.keep callee whole kept₁) callee := by
      intro hr
      -- of the callees only the signature itself may be on the stack
      have hstack : ∀ next, table.Calls callee next → next ∉ stack := fun next hcall =>
        hclear.not_mem_stack List.mem_cons_self hr hnot (.single hcall)
      have hown : table.own (callee :: stack) callee = table.own [callee] callee :=
        own_congr fun next hcall => by simp [hstack next hcall]
      refine FoundIn.of_callees hown.ge fun next hcall hne => ?_
      exact hinner next hcall (hregion hr (.single hcall)) (by simp [hne, hstack next hcall])
    obtain ⟨hw', hfound⟩ := ih₂ hclear.of_cons (hw₁.keep hcallee)
    refine ⟨hw', List.forall_mem_cons.2 ⟨fun hr _ => ?_, fun next hmem hr hnot => ?_⟩⟩
    · refine (hcallee hr).mono Set.subset_union_left fun s hs => ?_
      obtain ⟨t, ht⟩ := Option.isSome_iff_exists.1 hs
      rw [hrest.extends_kept ht]
      rfl
    · exact (hfound next hmem hr hnot).mono Set.subset_union_right fun _ hs => hs

end Walk

/-! ## Two walks at once -/

/-- One walk starts with nothing, the other one with whole calls; `bare` and `rich` is what they
keep. -/
structure Ahead (table : BehaviourTable) (start bare rich : Kept) : Prop where
  within : table.Within bare
  kept : ∀ ⦃signature t⦄, start signature = some t → rich signature = some t
  covered : ∀ ⦃signature t⦄, bare signature = some t → ∃ t', rich signature = some t' ∧ t ⊆ t'
  origin : ∀ ⦃signature t⦄, rich signature = some t → bare signature = none →
    (start signature).isSome

namespace Ahead

variable {start bare rich : Kept}

theorem of_none (h : ∀ signature, bare signature = none) : table.Ahead start bare start where
  within := .of_none h
  kept _ _ hs := hs
  covered _ _ hs := nomatch (h _).symm.trans hs
  origin _ _ hs _ := Option.isSome_of_eq_some hs

/-- Both walks analyse a signature. -/
theorem keep (h : table.Ahead start bare rich) {found' : Set Tip}
    (hpossible : found ⊆ table.Possible signature) (hsub : found ⊆ found')
    (hstart : start signature = none) :
    table.Ahead start (table.keep signature found bare) (table.keep signature found' rich) where
  within := h.within.keep hpossible
  kept s t hs := keep_eq_some_of_none hstart hs (h.kept hs)
  covered s t hs := by
    rcases keep_eq_some hs with hs' | ⟨rfl, hf, rfl⟩
    · by_cases hsig : s = signature
      · subst hsig
        by_cases hf : table.Fails s
        · rw [keep_of_fails hf]
          exact h.covered hs'
        · rw [keep_self hf] at hs
          exact ⟨found', keep_self hf .., Option.some.inj hs ▸ hsub⟩
      · rw [keep_of_ne hsig]
        exact h.covered hs'
    · exact ⟨found', keep_self hf .., hsub⟩
  origin s t hs hnone := by
    by_cases hsig : s = signature
    · subst hsig
      by_cases hf : table.Fails s
      · rw [keep_of_fails hf] at hs hnone
        exact h.origin hs hnone
      · rw [keep_self hf] at hnone
        cases hnone
    · rw [keep_of_ne hsig] at hs hnone
      exact h.origin hs hnone

/-- Only the first walk has to analyse a signature that the other one has from the start. -/
theorem of_whole (h : table.Ahead start bare rich) (hregion : table.Closed region)
    (hw : table.Whole region start) (hmem : signature ∈ region) {t : Set Tip}
    (hstart : start signature = some t) (hnone : bare signature = none) {bare₁ : Kept}
    {inner : Set Tip}
    (hwalk : table.Walk (signature :: stack) bare (table.callees signature) inner bare₁) :
    table.Ahead start
      (table.keep signature (table.own (signature :: stack) signature ∪ inner) bare₁) rich := by
  obtain ⟨hwithin₁, hinner⟩ := hwalk.within h.within
  have hwithin := hwithin₁.keep (analysed_subset_possible stack hinner)
  refine ⟨hwithin, h.kept, fun s t' hs => ?_, fun s t' hs hnone' => ?_⟩
  · have hnew : bare s = some t' ∨ ¬table.Fails s ∧ table.Reaches signature s := by
      rcases keep_eq_some hs with hs | ⟨rfl, hf, -⟩
      · refine (hwalk.kept_cases hs).imp_right fun ⟨hf, next, hmem, hreach⟩ => ⟨hf, ?_⟩
        exact hreach.head (mem_callees.1 hmem)
      · exact .inr ⟨hf, .refl⟩
    rcases hnew with hs' | ⟨hf, hreach⟩
    · exact h.covered hs'
    · obtain ⟨known, hknown⟩ := Option.isSome_iff_exists.1 ((hw hmem hstart hreach).2 hf)
      refine ⟨known, h.kept hknown, fun x hx => ?_⟩
      obtain ⟨last, hlast, hown⟩ := hwithin hs hx
      exact (hw (hregion hmem hreach) hknown hlast).1 hown
  · refine h.origin hs (Option.eq_none_iff_forall_ne_some.2 fun t hb => ?_)
    cases hnone'.symm.trans (keep_eq_some_of_none hnone hb (hwalk.extends_kept hb))

end Ahead

/-- In the region, a walk finds on top of whole calls whatever it finds without them. -/
theorem Walk.lockstep {start bare bare' rich rich' : Kept} {found' : Set Tip}
    (hregion : table.Closed region) (hw : table.Whole region start)
    (h : table.Walk stack bare calls found bare') (h' : table.Walk stack rich calls found' rich')
    (hcalls : ∀ callee ∈ calls, callee ∈ region) (ha : table.Ahead start bare rich) :
    found ⊆ found' ∧ table.Ahead start bare' rich' := by
  induction h generalizing rich rich' found' with
  | nil =>
    cases h'
    exact ⟨subset_rfl, ha⟩
  | cycle hs _ ih =>
    cases h' with
    | cycle _ hrest' => exact ih hrest' (List.forall_mem_cons.1 hcalls).2 ha
    | restored hnot | analysed hnot => exact absurd hs hnot
  | restored hnot hk _ ih =>
    obtain ⟨known', hk', hsub⟩ := ha.covered hk
    cases h' with
    | cycle hs => exact absurd hs hnot
    | restored _ hk'' hrest' =>
      obtain rfl := Option.some.inj (hk'.symm.trans hk'')
      obtain ⟨hfound, ha'⟩ := ih hrest' (List.forall_mem_cons.1 hcalls).2 ha
      exact ⟨Set.union_subset_union hsub hfound, ha'⟩
    | analysed _ hnone => cases hk'.symm.trans hnone
  | @analysed stack bare bare₁ _ callee _ inner _ hnot hnone hinner _ ih₁ ih₂ =>
    have hpossible := analysed_subset_possible stack (hinner.within ha.within).2
    obtain ⟨hr, hrests⟩ := List.forall_mem_cons.1 hcalls
    cases h' with
    | cycle hs => exact absurd hs hnot
    | @restored _ _ _ _ _ known _ _ hk hrest' =>
      -- the call was there from the start, with whatever is possible beneath it
      obtain ⟨t, hstart⟩ := Option.isSome_iff_exists.1 (ha.origin hk hnone)
      obtain rfl := Option.some.inj ((ha.kept hstart).symm.trans hk)
      have ha₁ := ha.of_whole hregion hw hr hstart hnone hinner
      obtain ⟨hfound, ha'⟩ := ih₂ hrest' hrests ha₁
      refine ⟨Set.union_subset_union (fun x hx => ?_) hfound, ha'⟩
      obtain ⟨last, hreach, hown⟩ := hpossible hx
      exact (hw hr hstart hreach).1 hown
    | @analysed _ _ rich₁ _ _ _ inner' _ _ hnone' hinner' hrest' =>
      have hinners : ∀ next ∈ table.callees callee, next ∈ region := fun next hmem =>
        hregion hr (.single (mem_callees.1 hmem))
      obtain ⟨hsub, ha₁⟩ := ih₁ hinner' hinners ha
      have hstart : start callee = none := by
        cases hs : start callee with
        | none => rfl
        | some t => cases hnone'.symm.trans (ha.kept hs)
      have hboth := Set.union_subset_union (subset_refl (table.own (callee :: stack) callee)) hsub
      obtain ⟨hfound, ha'⟩ := ih₂ hrest' hrests (ha₁.keep hpossible hboth hstart)
      exact ⟨Set.union_subset_union hboth hfound, ha'⟩

/-! ## Runs -/

namespace Runs

theorem within (h : table.Runs kept entries found kept') (hw : table.Within kept) :
    table.Within kept' ∧ found ⊆ table.PossibleIn entries := by
  induction h with
  | nil => exact ⟨hw, Set.empty_subset _⟩
  | entry hwalk _ ih =>
    obtain ⟨hw₁, hinner⟩ := hwalk.within hw
    obtain ⟨hw', hfound⟩ := ih hw₁
    rw [possibleIn_cons]
    exact ⟨hw', Set.union_subset_union (analysed_subset_possible [] hinner) hfound⟩

theorem accounts {visited : Set Signature} {before : Set Tip}
    (h : table.Runs kept entries found kept') (ha : table.Accounts visited before [] kept) :
    ∃ visited', visited ⊆ visited' ∧ table.Accounts visited' (before ∪ found) [] kept' ∧
      ∀ entry ∈ entries, entry ∈ visited' := by
  induction h generalizing visited before with
  | nil =>
    exact ⟨visited, subset_rfl, ha.mono Set.subset_union_left,
      fun entry hmem => absurd hmem List.not_mem_nil⟩
  | @entry _ _ _ entry _ _ _ hwalk _ ih =>
    obtain ⟨visited₁, hsub₁, ha₁, hcalls₁⟩ := hwalk.accounts (ha.push entry)
    obtain ⟨visited', hsub, ha', hentries⟩ := ih (ha₁.pop hcalls₁ fun s t hk => .inl hk)
    refine ⟨visited', (hsub₁.trans (Set.subset_insert ..)).trans hsub, ?_,
      List.forall_mem_cons.2 ⟨hsub (Set.mem_insert ..), hentries⟩⟩
    rwa [Set.union_assoc before] at ha'

theorem whole (h : table.Runs kept entries found kept') (hregion : table.Closed region)
    (hsolitary : ∀ entry ∈ entries, ∀ last ∈ region, table.Reaches entry last → table.Solitary last)
    (hw : table.Whole region kept) : table.Whole region kept' := by
  induction h with
  | nil => exact hw
  | @entry _ _ _ entry rest _ _ hwalk _ ih =>
    have hclear : Walk.Clear table region [] (entry :: rest) :=
      ⟨fun s hs => absurd hs List.not_mem_nil, hsolitary⟩
    exact ih (List.forall_mem_cons.1 hsolitary).2
      (hwalk.whole hregion (hclear.push List.mem_cons_self) hw).1

theorem lockstep {start bare bare' rich rich' : Kept} {found' : Set Tip}
    (hregion : table.Closed region) (hw : table.Whole region start)
    (h : table.Runs bare entries found bare') (h' : table.Runs rich entries found' rich')
    (hentries : ∀ entry ∈ entries, entry ∈ region) (ha : table.Ahead start bare rich) :
    found ⊆ found' := by
  induction h generalizing rich rich' found' with
  | nil => exact Set.empty_subset _
  | entry hwalk _ ih =>
    obtain ⟨hr, hrests⟩ := List.forall_mem_cons.1 hentries
    cases h' with
    | entry hwalk' hrest' =>
      obtain ⟨hinner, ha₁⟩ := hwalk.lockstep hregion hw hwalk'
        (fun next hmem => hregion hr (.single (mem_callees.1 hmem))) ha
      exact Set.union_subset_union (Set.union_subset_union subset_rfl hinner)
        (ih hrest' hrests ha₁)

end Runs

/-- With nothing on the stack, everything of other kinds that is possible beneath a visited
signature is among what was found. -/
theorem Accounts.mem_of_possible {visited : Set Signature}
    (h : table.Accounts visited found [] kept) (hv : signature ∈ visited) {t : Tip}
    (ht : t ∈ table.Possible signature) (hkind : t.1 ≠ .invalidInvoke) : t ∈ found := by
  obtain ⟨last, hreach, hown⟩ := ht
  have hlast : last ∈ visited := by
    clear hown
    induction hreach with
    | refl => exact hv
    | tail _ hcall ih => exact (h.calls _ ih _ hcall).resolve_right List.not_mem_nil
  exact h.own last hlast t hown hkind

end FrameAudit.BehaviourTable
