import FrameAudit.Proofs.Analysis.WellFormed

/-! # The history of a frame

Operations change a frame in one direction only: its ledger is closed and never reopened, reports
are put behind those that are there, and what is left to change becomes less with every phase
(`Frame.Advances`). Every operation advances every frame, and so does every run. -/

namespace FrameAudit

/-- The place of a phase in the life of a ledger. -/
def Phase.rank : Phase → Nat
  | .writable => 0
  | .settled => 1
  | .frozen => 2

theorem Phase.rank_eq_zero {p : Phase} : p.rank = 0 ↔ p = .writable := by
  cases p <;> simp [rank]

theorem Ledger.prefix_noted (reports : List Report) (ρ : Report) :
    reports <+: noted reports ρ := by
  unfold noted
  split
  · exact List.prefix_rfl
  · exact List.prefix_append ..

namespace Frame

variable {strictness : Strictness} {r r' r'' : Frame} {result : Ty}

/-- The reports that no result retracts. -/
def lasting (r : Frame) : List Report := r.withoutUncaught.ledger.reports

theorem mem_lasting {ρ : Report} :
    ρ ∈ r.lasting ↔ ρ ∈ r.ledger.reports ∧ ρ.kind ≠ .uncaughtException := by
  simp [lasting, withoutUncaught]

/-! ## Reports -/

/-- Reports come behind those that are there. Only a basic policy retracts any, and then only such
of uncaught raises. -/
structure Grows (strictness : Strictness) (r r' : Frame) : Prop where
  sound : strictness = .sound → r.ledger.reports <+: r'.ledger.reports
  lasting : r.lasting <+: r'.lasting

theorem Grows.of_isPrefix (h : r.ledger.reports <+: r'.ledger.reports) : r.Grows strictness r' :=
  ⟨fun _ => h, h.filter _⟩

theorem Grows.refl (strictness : Strictness) (r : Frame) : r.Grows strictness r :=
  .of_isPrefix List.prefix_rfl

theorem Grows.trans (h : r.Grows strictness r') (h' : r'.Grows strictness r'') :
    r.Grows strictness r'' :=
  ⟨fun hs => (h.sound hs).trans (h'.sound hs), h.lasting.trans h'.lasting⟩

theorem grows_note (ρ : Report) (r : Frame) : r.Grows strictness (r.note ρ) :=
  .of_isPrefix (Ledger.prefix_noted ..)

theorem grows_observed (strictness : Strictness) (callers : CallPath) (position : Position)
    (observation : Observation) (r : Frame) :
    r.Grows strictness (r.observed strictness callers position observation) := by
  unfold observed
  split
  · exact .refl ..
  · exact grows_note ..

theorem grows_undefinedObserved (strictness : Strictness) (callers : CallPath)
    (body : List Instruction) (r : Frame) :
    r.Grows strictness (r.undefinedObserved strictness callers body) := by
  unfold undefinedObserved
  induction undefChecks body generalizing r with
  | nil => exact .refl ..
  | cons check checks ih => exact (grows_observed ..).trans (ih _)

theorem grows_retracted (strictness : Strictness) (result : Ty) (r : Frame) :
    r.Grows strictness (r.retracted strictness result) := by
  unfold retracted
  split
  next h =>
    refine ⟨fun hs => by simp [hs] at h, ?_⟩
    simp [Frame.lasting, withoutUncaught]
  · exact .refl ..

theorem grows_uncaughtObserved (strictness : Strictness) (callers : CallPath) (result : Ty)
    (body : List Instruction) (r : Frame) :
    r.Grows strictness (r.uncaughtObserved strictness callers result body) := by
  unfold uncaughtObserved
  split
  · exact grows_retracted ..
  · exact (grows_retracted ..).trans (grows_observed ..)

theorem grows_finished (strictness : Strictness) (callers : CallPath) (result : Ty)
    (body : List Instruction) (r : Frame) :
    r.Grows strictness (r.finished strictness callers result body) := by
  have hresult : r.Grows strictness { r with result } := .of_isPrefix List.prefix_rfl
  have hundef := hresult.trans (grows_undefinedObserved strictness callers body _)
  have huncaught := hundef.trans (grows_uncaughtObserved strictness callers result body _)
  exact huncaught.trans (.of_isPrefix List.prefix_rfl)

/-! ## Frames -/

/-- A later state of a frame. -/
structure Advances (strictness : Strictness) (r r' : Frame) : Prop where
  sameCall : r.SameCall r'
  phase : r.ledger.phase.rank ≤ r'.ledger.phase.rank
  grows : r.Grows strictness r'
  closed : r.ledger.phase ≠ .writable →
    r'.ledger.reports.Sublist r.ledger.reports ∧ r'.aborted = r.aborted
  frozen : r.ledger.phase = .frozen → r' = r
  aborted : r.aborted = true → r'.aborted = true ∧ r'.result = r.result

namespace Advances

theorem refl (strictness : Strictness) (r : Frame) : r.Advances strictness r :=
  ⟨.refl r, Nat.le_refl _, .refl .., fun _ => ⟨.refl _, rfl⟩, fun _ => rfl, fun ha => ⟨ha, rfl⟩⟩

theorem writable_of_writable (h : r.Advances strictness r')
    (hw : r'.ledger.phase = .writable) : r.ledger.phase = .writable := by
  have hphase := h.phase
  rw [Phase.rank_eq_zero.2 hw] at hphase
  exact Phase.rank_eq_zero.1 (Nat.le_zero.1 hphase)

theorem trans (h : r.Advances strictness r') (h' : r'.Advances strictness r'') :
    r.Advances strictness r'' where
  sameCall := h.sameCall.trans h'.sameCall
  phase := Nat.le_trans h.phase h'.phase
  grows := h.grows.trans h'.grows
  closed hw := by
    obtain ⟨hsub, ha⟩ := h.closed hw
    obtain ⟨hsub', ha'⟩ := h'.closed (mt h.writable_of_writable hw)
    exact ⟨hsub'.trans hsub, ha'.trans ha⟩
  frozen hf := by
    have heq := h.frozen hf
    rw [h'.frozen (heq ▸ hf), heq]
  aborted ha := by
    obtain ⟨ha', hresult⟩ := h.aborted ha
    obtain ⟨ha'', hresult'⟩ := h'.aborted ha'
    exact ⟨ha'', hresult'.trans hresult⟩

/-- A live frame that takes reports can still become almost anything. -/
theorem of_writable (hw : r.ledger.phase = .writable) (ha : r.aborted = false)
    (hsame : r.SameCall r') (hgrows : r.Grows strictness r') : r.Advances strictness r' where
  sameCall := hsame
  phase := by simp [hw, Phase.rank]
  grows := hgrows
  closed h := absurd hw h
  frozen h := by simp [hw] at h
  aborted h := by simp [ha] at h

theorem published (ha : r.aborted = false) (hf : r.ledger.phase ≠ .frozen) :
    r.Advances strictness (r.published strictness result) where
  sameCall := sameCall_published ..
  phase := by simp
  grows := (grows_retracted ..).trans (.of_isPrefix List.prefix_rfl)
  closed _ := by
    refine ⟨?_, aborted_published ..⟩
    change (r.retracted strictness result).ledger.reports.Sublist _
    unfold retracted
    split
    · exact List.filter_sublist
    · exact .refl _
  frozen h := absurd h hf
  aborted h := by simp [ha] at h

theorem freeze (strictness : Strictness) (r : Frame) : r.Advances strictness r.frozen where
  sameCall := ⟨rfl, rfl, rfl, rfl⟩
  phase := by cases h : r.ledger.phase <;> simp [Frame.frozen, Ledger.freeze, Phase.rank]
  grows := .of_isPrefix List.prefix_rfl
  closed _ := ⟨.refl _, rfl⟩
  frozen h := by simp [Frame.frozen, Ledger.freeze, ← h]
  aborted h := ⟨h, rfl⟩

end Advances

end Frame

namespace Frames

variable {strictness : Strictness} {old new newer : Frames} {f : FrameId} {r : Frame}

/-- The frames that were there are there in a later state. -/
def Advance (strictness : Strictness) (old new : Frames) : Prop :=
  ∀ f r, old.get? f = some r → ∃ r', new.get? f = some r' ∧ r.Advances strictness r'

theorem Advance.refl (strictness : Strictness) (frames : Frames) :
    frames.Advance strictness frames :=
  fun _ r hr => ⟨r, hr, .refl ..⟩

theorem Advance.trans (h : old.Advance strictness new) (h' : new.Advance strictness newer) :
    old.Advance strictness newer := by
  intro f r hr
  obtain ⟨r', hr', hadv⟩ := h f r hr
  obtain ⟨r'', hr'', hadv'⟩ := h' f r' hr'
  exact ⟨r'', hr'', hadv.trans hadv'⟩

theorem advance_append (strictness : Strictness) (frames opened : Frames) :
    frames.Advance strictness (frames ++ opened) :=
  fun _ r hr => ⟨r, get?_append_of_some hr _, .refl ..⟩

theorem advance_update {frames : Frames} {change : Frame → Frame} (hr : frames.get? f = some r)
    (h : r.Advances strictness (change r)) :
    frames.Advance strictness (frames.update f change) := by
  intro g r' hr'
  by_cases hgf : g = f
  · subst hgf
    obtain rfl := Option.some.inj (hr.symm.trans hr')
    exact ⟨_, get?_update_self hr _, h⟩
  · exact ⟨r', (get?_update_of_ne hgf _).trans hr', .refl ..⟩

end Frames

namespace Analysis

open Frames (advance_append advance_update)

variable {s : Analysis} {op : Operation} {res : EStateM.Result Fault Analysis Answer}

theorem Step.advance (h : Step s op res) :
    s.frames.Advance s.strictness (leaves res).frames := by
  cases h with
  | failed | answered => exact .refl _ _
  | noted _ _ f r _ _ _ _ hr ha hw _ =>
    exact advance_update hr (.of_writable hw ha (Frame.sameCall_note ..) (Frame.grows_note ..))
  | entry | analyze | restored => exact advance_append _ _ _
  | aborted f r _ _ _ _ hr ha hw =>
    exact advance_update hr
      (.of_writable hw ha (Frame.sameCall_failed ..) (.of_isPrefix (Ledger.prefix_noted ..)))
  | finished f r _ _ _ hr ha hw =>
    exact advance_update hr
      (.of_writable hw ha (Frame.sameCall_finished ..) (Frame.grows_finished ..))
  | published f r _ _ hr ha hf => exact advance_update hr (.published ha hf)
  | frozen =>
    intro f r hr
    exact ⟨r.frozen, by rw [leaves, get?_freeze, hr]; rfl, .freeze ..⟩

theorem WellFormed.advance_after (h : WellFormed s) (op : Operation) :
    s.frames.Advance s.strictness (s.after op).frames := by
  rw [after_eq]
  exact (step_cases h.linked op).advance

theorem WellFormed.config_after (h : WellFormed s) (op : Operation) :
    (s.after op).config = s.config := by
  rw [after_eq]
  exact (step_cases h.linked op).config_eq

theorem run_append (s : Analysis) (before later : List Operation) :
    s.run (before ++ later) = (s.run before).run later := List.foldl_append ..

theorem WellFormed.config_run (h : WellFormed s) (ops : List Operation) :
    (s.run ops).config = s.config := by
  induction ops generalizing s with
  | nil => rfl
  | cons op ops ih => exact (ih (h.after op)).trans (h.config_after op)

theorem WellFormed.advance_run (h : WellFormed s) (ops : List Operation) :
    s.frames.Advance s.strictness (s.run ops).frames := by
  induction ops generalizing s with
  | nil => exact .refl _ _
  | cons op ops ih =>
    have hrest := ih (h.after op)
    rw [strictness, h.config_after] at hrest
    exact (h.advance_after op).trans hrest

end Analysis

end FrameAudit
