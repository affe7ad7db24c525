import FrameAudit.Proofs.Script.OwnReports

/-! # Expanding the call tree

`Script.Expansion` are the reports that a script leads to if every call is followed, with no cache
and no frames: for every call path, what the last behaviour records in its own frame, with the path
in front. The path of such a report tells which behaviour it comes from, so two of them that say the
same are one (`Script.Expansion.eq_of_duplicates`). -/

namespace FrameAudit.Script

variable (script : Script)

/-- Calls lead from one signature to another; the path lists them, outermost first. -/
inductive Reaches : Signature → CallPath → Signature → Prop where
  | here (signature : Signature) : Reaches signature [] signature
  | call {caller callee last : Signature} {position : Position} {path : CallPath}
      (hcall : (position, callee) ∈ (script.behaviour caller).calls)
      (hrest : Reaches callee path last) : Reaches caller (⟨caller, position⟩ :: path) last

/-- The reports of the call tree of a signature, as seen from its root. The root is an entry or not;
every other call is not. -/
def Expansion (strictness : Strictness) (isEntry : Bool) (signature : Signature) (ρ : Report) :
    Prop :=
  ∃ path last, script.Reaches signature path last ∧
    ∃ own ∈ script.ownReports strictness last (isEntry && path.isEmpty), ρ = own.rebase path

variable {script} {strictness : Strictness} {isEntry : Bool} {signature : Signature}
  {ρ a b : Report}

/-- The tree is its root and the trees of the calls made there. -/
theorem expansion_iff : script.Expansion strictness isEntry signature ρ ↔
    ρ ∈ script.ownReports strictness signature isEntry ∨
      ∃ site ∈ (script.behaviour signature).calls, ∃ inner,
        script.Expansion strictness false site.2 inner ∧
          ρ = inner.rebase [⟨signature, site.1⟩] := by
  constructor
  · rintro ⟨path, last, hreach, own, hown, rfl⟩
    cases hreach with
    | here =>
      rw [List.isEmpty_nil, Bool.and_true] at hown
      exact .inl hown
    | @call _ callee _ position path hcall hrest =>
      rw [List.isEmpty_cons, Bool.and_false] at hown
      refine .inr ⟨(position, callee), hcall, own.rebase path,
        ⟨path, last, hrest, own, hown, rfl⟩, ?_⟩
      rw [Report.rebase_rebase]
      rfl
  · rintro (hown | ⟨⟨position, callee⟩, hcall, inner, ⟨path, last, hrest, own, hown, rfl⟩, rfl⟩)
    · refine ⟨[], signature, .here signature, ρ, ?_, rfl⟩
      rw [List.isEmpty_nil, Bool.and_true]
      exact hown
    · refine ⟨⟨signature, position⟩ :: path, last, .call hcall hrest, own, ?_, ?_⟩
      · rw [List.isEmpty_cons, Bool.and_false]
        exact hown
      · rw [Report.rebase_rebase]
        rfl

/-- The path of a report tells the calls and the behaviour that it comes from. -/
theorem Expansion.eq_of_duplicates (ha : script.Expansion strictness false signature a)
    (hb : script.Expansion strictness false signature b) (hab : a.Duplicates b) : a = b := by
  obtain ⟨path, last, -, own, hown, rfl⟩ := ha
  obtain ⟨path', last', -, own', hown', rfl⟩ := hb
  obtain ⟨position, finding, rfl⟩ := owns_of_mem_ownReports hown
  obtain ⟨position', finding', rfl⟩ := owns_of_mem_ownReports hown'
  obtain ⟨rfl, hstep⟩ := List.append_inj' hab.2.1 rfl
  obtain rfl : last = last' := congrArg PathStep.signature (List.singleton_inj.1 hstep)
  rw [Report.rebase_duplicates_iff] at hab
  rw [(script.distinct_ownReports ..).eq_of_duplicates hown hown' hab]

end FrameAudit.Script
