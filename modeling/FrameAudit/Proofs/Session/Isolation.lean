import FrameAudit.Proofs.Analysis.Alike
import FrameAudit.Proofs.Analysis.History
import FrameAudit.Session

/-! # Partitions are kept apart

An analysis reads and writes the partition of its own configuration and no other. What it answers
and keeps there is decided by the operations, by what the partition held before and by the
strictness of its policy. So two analyses with different partitions can be made in either order. -/

namespace FrameAudit

namespace Analysis

variable {s t : Analysis} {p : Partition}

/-- The answer or the fault of a computation. -/
def reply : EStateM.Result Fault Analysis Answer → Except Fault Answer
  | .ok answer _ => .ok answer
  | .error fault _ => .error fault

/-- The answers and faults of operations that are carried out one after the other. -/
def replies (s : Analysis) : List Operation → List (Except Fault Answer)
  | [] => []
  | op :: ops => reply (s.step op) :: (s.after op).replies ops

namespace Alike

theorem step (h : Alike s t) (op : Operation) :
    reply (s.step op) = reply (t.step op) ∧ Alike (s.after op) (t.after op) := by
  have hres : AlikeResults (s.step op) (t.step op) := perform_matches op h
  rw [after_eq, after_eq]
  generalize s.step op = res₁ at hres
  generalize t.step op = res₂ at hres
  cases hres with
  | ok answer h => exact ⟨rfl, h⟩
  | error fault h => exact ⟨rfl, h⟩

theorem run (h : Alike s t) (ops : List Operation) : Alike (s.run ops) (t.run ops) := by
  induction ops generalizing s t with
  | nil => exact h
  | cons op ops ih => exact ih (h.step op).2

theorem replies (h : Alike s t) (ops : List Operation) : s.replies ops = t.replies ops := by
  induction ops generalizing s t with
  | nil => rfl
  | cons op ops ih =>
    obtain ⟨hreply, hafter⟩ := h.step op
    rw [Analysis.replies, hreply, ih hafter, Analysis.replies]

theorem outcome (h : Alike s t) : s.conclude.1 = t.conclude.1 :=
  congrArg (fun frames : Frames => Outcome.mk (frames.map Frame.summary)) h.freeze.frames

end Alike

/-- An operation leaves the other partitions as they are. -/
theorem Step.part_eq {op : Operation} {res : EStateM.Result Fault Analysis Answer}
    (h : Step s op res) (hp : p ≠ s.partition) :
    (leaves res).cache.part p = s.cache.part p := by
  have hslot : ∀ signature signature',
      (⟨p, signature⟩ : Cache.Slot) ≠ ⟨s.partition, signature'⟩ :=
    fun _ _ heq => hp (congrArg Cache.Slot.partition heq)
  funext signature
  cases h with
  | finished => exact Frames.get?_keepIn_of_ne fun _ _ => hslot signature _
  | published => exact Frames.get?_foldl_keepIn_of_ne fun _ _ _ _ => hslot signature _
  | _ => rfl

theorem WellFormed.part_run (h : WellFormed s) (hp : p ≠ s.partition) (ops : List Operation) :
    (s.run ops).cache.part p = s.cache.part p := by
  induction ops generalizing s with
  | nil => rfl
  | cons op ops ih =>
    have hafter : (s.after op).cache.part p = s.cache.part p := by
      rw [after_eq]
      exact (step_cases h.linked op).part_eq hp
    have hp' : p ≠ (s.after op).partition := by rwa [partition, h.config_after]
    exact (ih (h.after op) hp').trans hafter

end Analysis

namespace Session

open Analysis (Alike WellFormed)

variable {s t : Session} {k l : Config} {p : Partition}

/-- An analysis on the cache of the session from its start to its conclusion: what it replies, its
outcome, and the session afterwards. -/
def analyse (s : Session) (k : Config) (ops : List Operation) :
    (List (Except Fault Answer) × Outcome) × Session :=
  let a := s.analysis k
  let concluded := (a.run ops).conclude
  ((a.replies ops, concluded.1), s.afterAnalysis concluded.2)

theorem analyse_congr (hstrict : k.policy.strictness = l.policy.strictness)
    (hpart : s.cache.part k.partition = t.cache.part l.partition) (ops : List Operation) :
    (s.analyse k ops).1 = (t.analyse l ops).1 ∧
      (s.analyse k ops).2.cache.part k.partition = (t.analyse l ops).2.cache.part l.partition := by
  have halike : Alike (s.analysis k) (t.analysis l) := ⟨hstrict, rfl, rfl, hpart⟩
  have hrun := halike.run ops
  have hk : ((s.analysis k).run ops).partition = k.partition :=
    congrArg Config.partition ((WellFormed.start k s.cache).config_run ops)
  have hl : ((t.analysis l).run ops).partition = l.partition :=
    congrArg Config.partition ((WellFormed.start l t.cache).config_run ops)
  constructor
  · exact Prod.ext (halike.replies ops) hrun.outcome
  · have hafter := hrun.part
    rwa [hk, hl] at hafter

theorem part_analyse (hp : p ≠ k.partition) (ops : List Operation) :
    (s.analyse k ops).2.cache.part p = s.cache.part p :=
  (WellFormed.start k s.cache).part_run hp ops

/-- Another analysis with another partition makes no difference to an analysis. -/
theorem analyse_after (hne : k.partition ≠ l.partition) (ops others : List Operation) :
    (s.analyse k ops).1 = ((s.analyse l others).2.analyse k ops).1 ∧
      (s.analyse k ops).2.cache.part k.partition =
        ((s.analyse l others).2.analyse k ops).2.cache.part k.partition :=
  analyse_congr rfl (part_analyse hne others).symm ops

/-- What an analysis replies, its outcome and what it keeps in its own partition are determined by
its operations, the strictness of its policy and what its partition held; the other partitions stay
as they are. Hence two analyses with different partitions can change places. -/
theorem partitions_isolated :
    (∀ (s t : Session) (k l : Config) (ops : List Operation),
      k.policy.strictness = l.policy.strictness →
      s.cache.part k.partition = t.cache.part l.partition →
        (s.analyse k ops).1 = (t.analyse l ops).1 ∧
        (s.analyse k ops).2.cache.part k.partition =
          (t.analyse l ops).2.cache.part l.partition) ∧
    (∀ (s : Session) (k : Config) (ops : List Operation) (p : Partition), p ≠ k.partition →
      (s.analyse k ops).2.cache.part p = s.cache.part p) ∧
    (∀ (s : Session) (k l : Config) (ops ops' : List Operation), k.partition ≠ l.partition →
      ((s.analyse l ops').2.analyse k ops).1 = (s.analyse k ops).1 ∧
      ((s.analyse k ops).2.analyse l ops').1 = (s.analyse l ops').1 ∧
      ∀ p, ((s.analyse k ops).2.analyse l ops').2.cache.part p =
        ((s.analyse l ops').2.analyse k ops).2.cache.part p) := by
  refine ⟨fun s t k l ops hstrict hpart => analyse_congr hstrict hpart ops,
    fun s k ops p hp => part_analyse hp ops, fun s k l ops ops' hne => ?_⟩
  obtain ⟨hk, hkpart⟩ := analyse_after (s := s) hne ops ops'
  obtain ⟨hl, hlpart⟩ := analyse_after (s := s) hne.symm ops' ops
  refine ⟨hk.symm, hl.symm, fun p => ?_⟩
  by_cases hpk : p = k.partition
  · rw [part_analyse (hpk ▸ hne), hpk, hkpart]
  · by_cases hpl : p = l.partition
    · rw [part_analyse hpk, hpl, hlpart]
    · rw [part_analyse hpl, part_analyse hpk, part_analyse hpk, part_analyse hpl]

/-- A basic policy that is wrapped twice, with another tuning than usual. -/
def wrapped : Config := ⟨⟨false, true⟩, .fresh (.fresh .basic 0) 1⟩

/-- The result of a call is kept in the partition of the usual configuration. -/
def onePart : Session :=
  { cache := ({} : Cache).insert ⟨({} : Config).partition, ⟨"helper", []⟩⟩ ⟨.any, []⟩ }

/-- The same result is kept in the partition of `wrapped`, and another one in the usual
partition. -/
def twoParts : Session :=
  { cache := (({} : Cache).insert ⟨({} : Config).partition, ⟨"helper", []⟩⟩ ⟨.bottom, []⟩).insert
      ⟨wrapped.partition, ⟨"helper", []⟩⟩ ⟨.any, []⟩ }

/-- A call is filled from the cache, another one is analysed and kept, and a third is refused. -/
def keepingOne : List Operation :=
  [.enterEntry ⟨"main", []⟩,
   .enterCall ⟨"helper", []⟩ ⟨⟨0⟩, ⟨"m.jl", 1⟩⟩,
   .enterCall ⟨"worker", []⟩ ⟨⟨0⟩, ⟨"m.jl", 2⟩⟩,
   .evaluateCondition ⟨2⟩ ⟨"m.jl", 20⟩ .any,
   .finishFrame ⟨2⟩ .any [],
   .enterCall ⟨"late", []⟩ ⟨⟨7⟩, ⟨"m.jl", 3⟩⟩]

theorem partitions_isolated_wrapped :
    ({} : Config).policy.strictness = wrapped.policy.strictness ∧
      onePart.cache.part ({} : Config).partition = twoParts.cache.part wrapped.partition ∧
      ({} : Config).partition ≠ wrapped.partition ∧
      (onePart.analyse {} keepingOne).1 = (twoParts.analyse wrapped keepingOne).1 ∧
      (onePart.analyse {} keepingOne).2.cache.part ({} : Config).partition =
        (twoParts.analyse wrapped keepingOne).2.cache.part wrapped.partition ∧
      (twoParts.analyse {} keepingOne).1 ≠ (twoParts.analyse wrapped keepingOne).1 ∧
      (twoParts.analyse wrapped keepingOne).2.cache.part ({} : Config).partition =
        twoParts.cache.part ({} : Config).partition ∧
      ((twoParts.analyse wrapped keepingOne).2.analyse {} keepingOne).1 =
        (twoParts.analyse {} keepingOne).1 := by
  have hstrict : ({} : Config).policy.strictness = wrapped.policy.strictness := rfl
  have hne : ({} : Config).partition ≠ wrapped.partition := by decide
  have hpart : onePart.cache.part ({} : Config).partition =
      twoParts.cache.part wrapped.partition := by
    have hother : (({} : Cache).insert ⟨({} : Config).partition, ⟨"helper", []⟩⟩
        ⟨.bottom, []⟩).part wrapped.partition = ({} : Cache).part ({} : Config).partition := by
      funext signature
      rw [Cache.part, Cache.get?_insert, if_neg fun h => hne (congrArg Cache.Slot.partition h).symm]
      rfl
    rw [onePart, twoParts, Cache.part_insert, Cache.part_insert, hother]
  obtain ⟨halike, hothers, hswap⟩ := partitions_isolated
  obtain ⟨hreplies, hkept⟩ := halike onePart twoParts {} wrapped keepingOne hstrict hpart
  exact ⟨hstrict, hpart, hne, hreplies, hkept, by decide,
    hothers twoParts wrapped keepingOne _ hne,
    (hswap twoParts {} wrapped keepingOne keepingOne hne).1⟩

end Session

end FrameAudit
