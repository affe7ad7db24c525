import FrameAudit.Session
import Mathlib.Data.Finset.Card
import Mathlib.Logic.Relation

/-! # Scripts and their driver

A script says what inference does for each signature: either no body can be generated, or it makes
observations and calls, one after the other, and then finishes the frame. No signature calls itself,
directly or through others. `Script.drive` carries a script out from some entries. It runs the
behaviour of a callee when it is told to analyse it, and skips it otherwise. -/

namespace FrameAudit

/-- A resolved call in a script. Its callee is named by its place among the calls that the behaviour
made before. -/
structure ScriptedCall where
  resolution : Resolution
  result : Ty
  callee : Option Nat

namespace ScriptedCall

/-- The call, given the frames of the calls made before. -/
def resolve (call : ScriptedCall) (opened : List FrameId) : ResolvedCall :=
  ⟨call.resolution, call.result, call.callee.bind (opened[·]?)⟩

end ScriptedCall

/-- What inference meets at a statement. -/
inductive Hook where
  | resolveCall (call : ScriptedCall)
  | queryReturnType (argCount : Nat)
  | dispatchCall (argTypes : List Ty) (call : ScriptedCall)
  | readGlobal (scope name : String) (resolved : Bool)
  | evaluateCondition (observed : Ty)
  | evaluateRaise (thrown : Ty)
  | evaluateIntrinsic (op : Intrinsic) (argTypes : List Ty) (observed : Ty)

namespace Hook

/-- The operation of a hook at a statement of a frame, given the frames of the calls made before. -/
def operation (f : FrameId) (position : Position) (opened : List FrameId) : Hook → Operation
  | .resolveCall call => .resolveCall f position (call.resolve opened)
  | .queryReturnType argCount => .queryReturnType f position argCount
  | .dispatchCall argTypes call => .dispatchCall f position argTypes (call.resolve opened)
  | .readGlobal scope name resolved => .readGlobal f position scope name resolved
  | .evaluateCondition observed => .evaluateCondition f position observed
  | .evaluateRaise thrown => .evaluateRaise f position thrown
  | .evaluateIntrinsic op argTypes observed => .evaluateIntrinsic f position op argTypes observed

end Hook

inductive Statement where
  | hook (position : Position) (hook : Hook)
  | call (position : Position) (callee : Signature)

namespace Statement

def call? : Statement → Option (Position × Signature)
  | .hook _ _ => none
  | .call position callee => some (position, callee)

end Statement

/-- What inference does in a frame. -/
inductive Behaviour where
  /-- No body can be generated. -/
  | failure (position : Position) (error : ErrorValue)
  /-- The statements are met in order, the frame is finished, and a better result may be published
  at once. -/
  | body (statements : List Statement) (result : Ty) (instructions : List Instruction)
      (refined : Option Ty)

namespace Behaviour

def statements : Behaviour → List Statement
  | .failure _ _ => []
  | .body statements _ _ _ => statements

def calls (b : Behaviour) : List (Position × Signature) := b.statements.filterMap Statement.call?

/-- The result in the end. -/
def result : Behaviour → Ty
  | .failure _ _ => .bottom
  | .body _ result _ refined => refined.getD result

end Behaviour

/-- What is written down about each signature; what is not, does nothing. -/
abbrev BehaviourTable := List (Signature × Behaviour)

namespace BehaviourTable

def get (table : BehaviourTable) (signature : Signature) : Behaviour :=
  (table.lookup signature).getD (.body [] .bottom [] none)

def Calls (table : BehaviourTable) (caller callee : Signature) : Prop :=
  callee ∈ (table.get caller).calls.map Prod.snd

instance (table : BehaviourTable) (caller callee : Signature) :
    Decidable (table.Calls caller callee) := by
  unfold Calls; infer_instance

variable {table : BehaviourTable} {caller callee : Signature}

/-- A signature that calls anything is written down. -/
theorem mem_of_calls (h : table.Calls caller callee) : (caller, table.get caller) ∈ table := by
  cases hlookup : table.lookup caller with
  | none =>
    simp [Calls, get, hlookup, Behaviour.calls, Behaviour.statements] at h
  | some behaviour =>
    obtain ⟨before, after, htable, -⟩ := List.lookup_eq_some_iff.1 hlookup
    have hget : table.get caller = behaviour := by simp [get, hlookup]
    rw [hget, htable]
    exact List.mem_append_right _ List.mem_cons_self

/-- There is no recursion if every call goes down in some rank. -/
theorem acyclic_of_rank (rank : Signature → Nat)
    (h : ∀ entry ∈ table, ∀ site ∈ entry.2.calls, rank site.2 < rank entry.1)
    (signature : Signature) : ¬Relation.TransGen table.Calls signature signature := by
  have hcalls : ∀ {caller callee}, table.Calls caller callee → rank callee < rank caller := by
    intro caller callee hcall
    obtain ⟨site, hsite, rfl⟩ := List.mem_map.1 hcall
    exact h _ (mem_of_calls hcall) site hsite
  have hbelow : ∀ {caller callee}, Relation.TransGen table.Calls caller callee →
      rank callee < rank caller := by
    intro caller callee hreach
    induction hreach with
    | single hcall => exact hcalls hcall
    | tail _ hcall ih => exact (hcalls hcall).trans ih
  exact fun hreach => Nat.lt_irrefl _ (hbelow hreach)

end BehaviourTable

/-- A finite table of behaviours without recursion. -/
structure Script where
  table : BehaviourTable
  acyclic : ∀ signature, ¬Relation.TransGen table.Calls signature signature

namespace Script

variable (script : Script) {caller callee : Signature}

def behaviour (signature : Signature) : Behaviour := script.table.get signature

/-! ## Termination -/

open Classical in
/-- The number of signatures written down that a signature reaches by calls. -/
noncomputable def rank (signature : Signature) : Nat :=
  ((script.table.map Prod.fst).toFinset.filter
    (Relation.ReflTransGen script.table.Calls signature)).card

open Classical in
theorem rank_lt (h : script.table.Calls caller callee) :
    script.rank callee < script.rank caller := by
  refine Finset.card_lt_card ⟨fun s hs => ?_, fun hsub => ?_⟩
  · rw [Finset.mem_filter] at hs ⊢
    exact ⟨hs.1, hs.2.head h⟩
  · have hcaller : caller ∈ (script.table.map Prod.fst).toFinset :=
      List.mem_toFinset.2 (List.mem_map_of_mem (BehaviourTable.mem_of_calls h))
    have hback := (Finset.mem_filter.1 (hsub (Finset.mem_filter.2 ⟨hcaller, .refl⟩))).2
    exact script.acyclic caller (.head' h hback)

/-! ## The driver -/

section

variable (analyze : Signature → FrameId → AnalysisM Unit) (f : FrameId)

/-- Meets the statements in order. The frames of the calls made before are given. -/
def runStatements : List Statement → List FrameId → AnalysisM Unit
  | [], _ => return ()
  | .hook position hook :: rest, opened => do
    discard (Analysis.perform (hook.operation f position opened))
    runStatements rest opened
  | .call position callee :: rest, opened => do
    match ← Analysis.enterCall callee ⟨f, position⟩ with
    | .analyze g => do
      analyze callee g
      runStatements rest (opened ++ [g])
    | .cached g _ | .cycle g _ => runStatements rest (opened ++ [g])

/-- Runs a behaviour in a frame, where callees are analysed by `analyze`. -/
def runBehaviour : Behaviour → AnalysisM Unit
  | .failure position error => discard (Analysis.abortFrame f position error)
  | .body statements result instructions refined => do
    runStatements analyze f statements []
    discard (Analysis.finishFrame f result instructions)
    match refined with
    | none => return ()
    | some refined => discard (Analysis.publishResult f refined)

end

/-- Analyses the frame of a call. -/
def runFrame (signature : Signature) (f : FrameId) : AnalysisM Unit :=
  runBehaviour
    (fun callee g =>
      if _h : script.table.Calls signature callee then runFrame callee g else return ())
    f (script.behaviour signature)
termination_by script.rank signature
decreasing_by exact script.rank_lt _h

/-- Analyses entries one after the other. -/
def drive (entries : List Signature) : AnalysisM Unit :=
  entries.forM fun signature => do
    let f ← Analysis.enterEntry signature
    script.runFrame signature f

/-- The session after a run of the script. -/
def sessionAfter (config : Config) (session : Session) (entries : List Signature) : Session :=
  match (script.drive entries).run (session.analysis config) with
  | .ok _ a | .error _ a => session.afterAnalysis a.conclude.2

end Script

end FrameAudit
