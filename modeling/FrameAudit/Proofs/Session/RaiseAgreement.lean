import FrameAudit.Proofs.Session.KeptCalls

/-! # What is said about the raises of a call

A call that is no entry is finished at most once in the frames and in the partition of an analysis;
after that it is restored. So wherever its uncaught raises are reported, the same raises are listed.
-/

namespace FrameAudit.Analysis

variable {s : Analysis} {F F' : Signature → Finding} {op : Operation}
  {res : EStateM.Result Fault Analysis Answer}

/-- All reports of uncaught raises in a call, in frames of callees and in the partition of the
analysis, say the same, namely what `F` gives for the call. -/
structure RaisesAgree (s : Analysis) (F : Signature → Finding) : Prop where
  ledgers : s.frames.All fun r => r.isEntry = false → ∀ ρ ∈ r.ledger.reports, ∀ signature,
    ρ.IsUncaughtOf signature → ρ.finding = F signature
  cache : ∀ caller call, s.cache.get? ⟨s.partition, caller⟩ = some call →
    ∀ ρ ∈ call.reports, ∀ signature, ρ.IsUncaughtOf signature → ρ.finding = F signature

theorem RaisesAgree.start (config : Config) (F : Signature → Finding) :
    RaisesAgree { config } F where
  ledgers := .nil _
  cache caller call hk := by simp at hk

namespace KeptCalls

/-- It is enough that `F` changes only for calls that are not kept yet, and says of the call that is
finished, if any, what is left of its raises. -/
private theorem raisesAgree_leaves (h : KeptCalls s) (hstep : Step s op res)
    (hl : (leaves res).frames.Linked) (hF : s.RaisesAgree F)
    (hold : ∀ signature, s.IsKept signature → F' signature = F signature)
    (hnew : ∀ f r result body, op = .finishFrame f result body → s.frames.Keeps f r →
      r.ledger.phase = .writable → F' r.signature =
        .uncaughtException (unreportedRaises r.ledger.seriousPositions body)) :
    (leaves res).RaisesAgree F' := by
  have hledgers : (leaves res).frames.All fun r => r.isEntry = false → ∀ ρ ∈ r.ledger.reports,
      ∀ signature, ρ.IsUncaughtOf signature → ρ.finding = F' signature := by
    refine forall_ledgers h.values hstep ?_ ?_ ?_ ?_
    · exact fun ρ hkind signature hu => absurd hu.1 hkind
    · intro f r hr he ρ hρ signature hu
      rw [hold signature (h.ledgers hr he ρ hρ signature hu)]
      exact hF.ledgers hr he ρ hρ signature hu
    · intro caller call callers hk ρ hρ hne signature hu
      have hu := hu.of_rebase hne
      rw [hold signature (h.cache hk ρ hρ signature hu)]
      exact hF.cache caller call hk ρ hρ signature hu
    · intro f r result body callers position hop hr hw _ _ signature hu
      obtain rfl := Report.isUncaughtOf_reportAt hu
      exact (hnew f r result body hop hr hw).symm
  refine ⟨hledgers, fun caller call hk ρ hρ signature hu => ?_⟩
  rw [partition, hstep.config_eq] at hk
  rcases hstep.cache_cases hk with hk | ⟨f, r, hr, -, -, rfl⟩
  · rw [hold signature (h.cache hk ρ hρ signature hu)]
    exact hF.cache caller call hk ρ hρ signature hu
  · obtain ⟨g, r', hr', he, -, own, hown, rfl⟩ := hl.exists_ledger_of_callOf hr hρ
    exact hledgers hr' he own hown signature hu.of_below

theorem raisesAgree_after (h : KeptCalls s) (hF : s.RaisesAgree F) (op : Operation) :
    ∃ F', (s.after op).RaisesAgree F' := by
  have hwell := h.values.rooted.wellFormed
  have hstep := step_cases hwell.linked op
  have hl := (hwell.after op).linked
  rw [after_eq] at hl ⊢
  by_cases hfinish : ∃ f r result body, op = .finishFrame f result body ∧ s.frames.Keeps f r ∧
      r.ledger.phase = .writable
  · obtain ⟨f, r, result, body, rfl, hr, hw⟩ := hfinish
    have hunkept := h.writable hr hw
    let raises : Finding := .uncaughtException (unreportedRaises r.ledger.seriousPositions body)
    refine ⟨Function.update F r.signature raises, h.raisesAgree_leaves hstep hl hF ?_ ?_⟩
    · intro signature hkept
      refine Function.update_of_ne ?_ ..
      rintro rfl
      exact hunkept hkept
    · rintro g r' _ _ ⟨⟩ hr' hw'
      obtain rfl := Option.some.inj (hr.get?.symm.trans hr'.get?)
      exact Function.update_self ..
  · refine ⟨F, h.raisesAgree_leaves hstep hl hF (fun _ _ => rfl) ?_⟩
    exact fun f r result body hop hr hw => (hfinish ⟨f, r, result, body, hop, hr, hw⟩).elim

end KeptCalls

end FrameAudit.Analysis
