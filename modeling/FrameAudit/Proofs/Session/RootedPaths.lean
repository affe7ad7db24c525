import FrameAudit.Proofs.Analysis.Rooted
import FrameAudit.Proofs.Session.Reachable

/-! # Call paths in sessions

In every analysis of every session, the path of a report leads through the callers of the frame that
holds it, as many as the frame is deep, and on through the frame itself. Paths are cut where calls
are kept and continued outwards where calls are restored, at whatever depth and in whatever
analysis; the cut paths start at the call that they are kept with. -/

namespace FrameAudit

namespace Frames

variable {frames : Frames} {f : FrameId} {r : Frame}

/-- The calls that lead to a frame, outermost first: nothing for an entry, and for a callee the
calls that lead to its caller and then the statement of the caller that it was called from. -/
inductive CalledThrough (frames : Frames) : FrameId → CallPath → Prop where
  | entry {f : FrameId} {r : Frame} :
    frames.get? f = some r → r.site = none → CalledThrough frames f []
  | callee {f : FrameId} {r c : Frame} {site : CallSite} {callers : CallPath} :
    frames.get? f = some r → r.site = some site → frames.get? site.caller = some c →
    CalledThrough frames site.caller callers →
    CalledThrough frames f (callers ++ [⟨c.signature, site.position⟩])

theorem Linked.calledThrough (h : Linked frames) (hr : frames.get? f = some r) :
    frames.CalledThrough f (frames.callerPath f) := by
  refine h.callerInduction (P := fun f _ => frames.CalledThrough f (frames.callerPath f))
    ?_ ?_ f r hr
  · intro f r hr hs
    rw [h.callerPath_entry hr hs]
    exact .entry hr hs
  · intro f r site c hr hs hc ih
    rw [h.callerPath_callee hr hs hc]
    exact .callee hr hs hc ih

end Frames

namespace Session

open Analysis (RunFrom)

variable {s : Session} {a : Analysis} {config : Config}

theorem rooted_invariant : Invariant (fun _ _ => True) Cache.Rooted Analysis.Rooted where
  empty _ _ h := by simp at h
  start config _ h := .start config h
  after op h _ := h.after op
  cache h := h.cache

/-- In all analyses of all sessions: the path of a report in a ledger leads through the callers of
its frame, whose number is the depth of the frame, and then through the frame itself; and the path
of a report in the cache starts at the call that it is kept with. -/
theorem report_paths_rooted (hs : s.Reachable) (ha : RunFrom (s.analysis config) a) :
    (∀ f r, a.frames.get? f = some r →
      a.frames.CalledThrough f (a.frames.callerPath f) ∧
      (a.frames.callerPath f).length = r.depth ∧
      ∀ ρ ∈ r.ledger.reports, ∃ position rest,
        ρ.path = a.frames.callerPath f ++ ⟨r.signature, position⟩ :: rest) ∧
    (∀ slot call, a.cache.get? slot = some call → ∀ ρ ∈ call.reports, ∃ position rest,
      ρ.path = ⟨slot.signature, position⟩ :: rest) := by
  have h := rooted_invariant.analysis hs ha
  have hl := h.wellFormed.linked
  refine ⟨fun f r hr => ⟨hl.calledThrough hr, hl.length_callerPath hr, fun ρ hρ => ?_⟩, ?_⟩
  · obtain ⟨_, ⟨position, rest, rfl⟩, hpath⟩ := h.frames hr ρ hρ
    exact ⟨position, rest, hpath⟩
  · exact fun slot call hk ρ hρ => h.cache hk ρ hρ

/-- A call is analysed beneath an entry, with a report in a callee of its own. The next analysis
restores it one level deeper. -/
def restoredDeeper : Session × List Operation :=
  let first := (({} : Session).analysis {}).run
    [.enterEntry ⟨"main", []⟩,
     .enterCall ⟨"outer", []⟩ ⟨⟨0⟩, ⟨"m.jl", 1⟩⟩,
     .enterCall ⟨"inner", []⟩ ⟨⟨1⟩, ⟨"m.jl", 10⟩⟩,
     .readGlobal ⟨2⟩ ⟨"m.jl", 20⟩ "Main" "x" false,
     .finishFrame ⟨2⟩ .any [],
     .finishFrame ⟨1⟩ .any []]
  (({} : Session).afterAnalysis first,
    [.enterEntry ⟨"start", []⟩,
     .enterCall ⟨"wrapper", []⟩ ⟨⟨0⟩, ⟨"s.jl", 1⟩⟩,
     .enterCall ⟨"outer", []⟩ ⟨⟨1⟩, ⟨"s.jl", 2⟩⟩])

theorem report_paths_rooted_restoredDeeper :
    let warm := restoredDeeper.1
    let last := (warm.analysis {}).run restoredDeeper.2
    warm.Reachable ∧ RunFrom (warm.analysis {}) last ∧
      ∃ r, last.frames.get? ⟨2⟩ = some r ∧ r.signature = ⟨"outer", []⟩ ∧
        (last.frames.callerPath ⟨2⟩).length = 2 ∧
        ∃ ρ ∈ r.ledger.reports, ρ.path.length = 4 ∧ ∃ position rest,
          ρ.path = last.frames.callerPath ⟨2⟩ ++ ⟨r.signature, position⟩ :: rest := by
  have hwarm : restoredDeeper.1.Reachable :=
    .dropped {} .start (.run .start fun _ _ _ => trivial)
  have hlast : RunFrom (restoredDeeper.1.analysis {})
      ((restoredDeeper.1.analysis {}).run restoredDeeper.2) :=
    .run .start fun _ _ _ => trivial
  obtain ⟨r, hr, hsignature, hdepth, ρ, hρ, hlen⟩ :
      ∃ r, ((restoredDeeper.1.analysis {}).run restoredDeeper.2).frames.get? ⟨2⟩ = some r ∧
        r.signature = ⟨"outer", []⟩ ∧ r.depth = 2 ∧
        ∃ ρ ∈ r.ledger.reports, ρ.path.length = 4 :=
    ⟨_, rfl, rfl, rfl, _, List.mem_cons_self, rfl⟩
  obtain ⟨-, hlength, hpaths⟩ := (report_paths_rooted hwarm hlast).1 ⟨2⟩ r hr
  exact ⟨hwarm, hlast, r, hr, hsignature, hlength.trans hdepth, ρ, hρ, hlen, hpaths ρ hρ⟩

end Session

end FrameAudit
