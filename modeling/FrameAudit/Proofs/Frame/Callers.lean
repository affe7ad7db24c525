import FrameAudit.Analysis.Frame
import Mathlib.Data.List.Basic

/-! # Callers of frames

The frames of an analysis form a forest: an entry has no caller, and the caller of any other frame
is an older frame, one level above (`Frames.Linked`). Proofs follow the callers outwards
(`Frames.Linked.callerInduction`). What is said about callers, namely `callSites`, `callerPath` and
`Beneath`, does not change for frames that are there when others are opened or when what is known
about a call changes (`Frames.Extends`). -/

namespace FrameAudit

namespace Frame

/-- Two states of the frame of one call. -/
structure SameCall (r r' : Frame) : Prop where
  signature : r'.signature = r.signature
  site : r'.site = r.site
  isEntry : r'.isEntry = r.isEntry
  depth : r'.depth = r.depth

theorem SameCall.refl (r : Frame) : r.SameCall r := ⟨rfl, rfl, rfl, rfl⟩

theorem SameCall.symm {a b : Frame} (h : a.SameCall b) : b.SameCall a :=
  ⟨h.1.symm, h.2.symm, h.3.symm, h.4.symm⟩

theorem SameCall.trans {a b c : Frame} (h : a.SameCall b) (h' : b.SameCall c) : a.SameCall c :=
  ⟨h'.1.trans h.1, h'.2.trans h.2, h'.3.trans h.3, h'.4.trans h.4⟩

end Frame

namespace Frames

variable {frames old new : Frames} {f g a : FrameId} {r r' c : Frame} {site : CallSite}

theorem index_lt_length (h : frames.get? f = some r) : f.index < frames.length :=
  (List.getElem?_eq_some_iff.1 h).1

theorem get?_update (frames : Frames) (f g : FrameId) (change : Frame → Frame) :
    (frames.update f change).get? g =
      if g = f then (frames.get? f).map change else frames.get? g := by
  obtain ⟨i⟩ := f
  obtain ⟨j⟩ := g
  simp only [get?, update, List.getElem?_modify, FrameId.mk.injEq]
  by_cases h : j = i
  · subst h
    simp
  · have h' : i ≠ j := Ne.symm h
    simp [h, h']

theorem get?_update_self (h : frames.get? f = some r) (change : Frame → Frame) :
    (frames.update f change).get? f = some (change r) := by
  simp [get?_update, h]

theorem get?_update_of_ne (h : g ≠ f) (change : Frame → Frame) :
    (frames.update f change).get? g = frames.get? g := by
  simp [get?_update, h]

theorem get?_update_cases {change : Frame → Frame} (h : frames.get? f = some r)
    (hg : (frames.update f change).get? g = some r') :
    (g = f ∧ r' = change r) ∨ (g ≠ f ∧ frames.get? g = some r') := by
  by_cases hgf : g = f
  · subst hgf
    rw [get?_update_self h] at hg
    exact .inl ⟨rfl, (Option.some.inj hg).symm⟩
  · rw [get?_update_of_ne hgf] at hg
    exact .inr ⟨hgf, hg⟩

/-- Changes that agree on the frame agree. -/
theorem update_congr {change change' : Frame → Frame} (h : frames.get? f = some r)
    (heq : change r = change' r) : frames.update f change = frames.update f change' := by
  refine List.ext_getElem? fun i => ?_
  have := get?_update frames f ⟨i⟩ change
  have := get?_update frames f ⟨i⟩ change'
  simp_all [get?, update]

theorem update_update (frames : Frames) (f : FrameId) (change change' : Frame → Frame) :
    (frames.update f change).update f change' = frames.update f (change' ∘ change) :=
  List.modify_modify_eq change change' f.index frames

theorem update_id (frames : Frames) (f : FrameId) : frames.update f id = frames :=
  List.modify_id f.index frames

@[simp]
theorem length_update (frames : Frames) (f : FrameId) (change : Frame → Frame) :
    (frames.update f change).length = frames.length :=
  List.length_modify ..

theorem get?_append_of_some (h : frames.get? f = some r) (opened : Frames) :
    get? (frames ++ opened) f = some r := by
  rw [get?, List.getElem?_append_left (index_lt_length h)]
  exact h

/-- A frame of the longer list is the new one or an old one. -/
theorem get?_concat (h : get? (frames ++ [c]) f = some r) :
    (f.index = frames.length ∧ r = c) ∨ frames.get? f = some r := by
  rcases Nat.lt_or_ge f.index frames.length with hlt | hge
  · rw [get?, List.getElem?_append_left hlt] at h
    exact .inr h
  · rw [get?, List.getElem?_append_right hge, List.getElem?_singleton] at h
    split at h
    · exact .inl ⟨by omega, (Option.some.inj h).symm⟩
    · simp at h

@[simp]
theorem get?_concat_length (frames : Frames) (c : Frame) :
    get? (frames ++ [c]) ⟨frames.length⟩ = some c := by
  simp [get?]

theorem get?_length (frames : Frames) : frames.get? ⟨frames.length⟩ = none := by
  simp [get?]

/-- The newest frame can be changed before it is put behind the others. -/
theorem concat_update (frames : Frames) (c : Frame) (change : Frame → Frame) :
    update (frames ++ [c]) ⟨frames.length⟩ change = frames ++ [change c] := by
  refine List.ext_getElem? fun i => ?_
  rw [update, List.getElem?_modify]
  rcases Nat.lt_trichotomy i frames.length with h | rfl | h
  · simp [List.getElem?_append_left h, Nat.ne_of_gt h]
  · simp
  · have hnone : ∀ d : Frame, (frames ++ [d])[i]? = none := fun d =>
      List.getElem?_eq_none (by simp; omega)
    simp [hnone]

/-- All frames have a property. -/
def All (P : Frame → Prop) (frames : Frames) : Prop := ∀ ⦃f r⦄, frames.get? f = some r → P r

section All

variable {P : Frame → Prop} {change : Frame → Frame}

theorem All.nil (P : Frame → Prop) : All P [] := fun f r hr => by simp [get?] at hr

theorem All.update (h : All P frames) (hr : frames.get? f = some r) (hP : P (change r)) :
    All P (frames.update f change) := by
  intro g r' hr'
  rcases get?_update_cases hr hr' with ⟨-, rfl⟩ | ⟨-, hr'⟩
  · exact hP
  · exact h hr'

theorem All.concat (h : All P frames) (hP : P c) : All P (frames ++ [c]) := by
  intro g r hr
  rcases get?_concat hr with ⟨-, rfl⟩ | hr
  · exact hP
  · exact h hr

end All

/-! ## Links -/

/-- Entries are the frames without a caller, and a caller is older than its callee and one level
above it. -/
structure Linked (frames : Frames) : Prop where
  entry : ∀ {f r}, frames.get? f = some r → r.site = none → r.isEntry = true ∧ r.depth = 0
  callee : ∀ {f r site}, frames.get? f = some r → r.site = some site →
    r.isEntry = false ∧ site.caller.index < f.index ∧
      ∃ c, frames.get? site.caller = some c ∧ r.depth = c.depth + 1

/-- Every frame of `old` is in `new`, for the same call. -/
def Extends (old new : Frames) : Prop :=
  ∀ ⦃f r⦄, old.get? f = some r → ∃ r', new.get? f = some r' ∧ r.SameCall r'

theorem extends_append (frames opened : Frames) : Extends frames (frames ++ opened) :=
  fun _ r h => ⟨r, get?_append_of_some h opened, .refl r⟩

theorem extends_update (frames : Frames) (f : FrameId) {change : Frame → Frame}
    (h : ∀ r : Frame, r.SameCall (change r)) : Extends frames (frames.update f change) := by
  intro g r hr
  by_cases hg : g = f
  · subst hg
    exact ⟨change r, get?_update_self hr change, h r⟩
  · exact ⟨r, (get?_update_of_ne hg change).trans hr, .refl r⟩

namespace Linked

theorem nil : Linked [] := by
  constructor <;> simp [get?]

/-- Induction along the callers of a frame, outwards. -/
theorem callerInduction {P : FrameId → Frame → Prop} (h : Linked frames)
    (entry : ∀ f r, frames.get? f = some r → r.site = none → P f r)
    (callee : ∀ f r site c, frames.get? f = some r → r.site = some site →
      frames.get? site.caller = some c → P site.caller c → P f r) :
    ∀ f r, frames.get? f = some r → P f r := by
  suffices ∀ n f r, f.index = n → frames.get? f = some r → P f r from
    fun f r => this f.index f r rfl
  intro n
  induction n using Nat.strongRecOn with
  | ind n ih =>
    intro f r hn hr
    cases hs : r.site with
    | none => exact entry f r hr hs
    | some site =>
      obtain ⟨-, hlt, c, hc, -⟩ := h.callee hr hs
      exact callee f r site c hr hs hc (ih _ (hn ▸ hlt) _ _ rfl hc)

theorem isEntry_iff (h : Linked frames) (hr : frames.get? f = some r) :
    r.isEntry = true ↔ r.site = none := by
  cases hs : r.site with
  | none => simpa using (h.entry hr hs).1
  | some site => simpa using (h.callee hr hs).1

/-- An entry can be opened at any time. -/
theorem concat_entry (h : Linked frames) (hs : c.site = none) (he : c.isEntry = true)
    (hd : c.depth = 0) : Linked (frames ++ [c]) := by
  constructor
  · intro f r hr hsite
    rcases get?_concat hr with ⟨-, rfl⟩ | hr
    · exact ⟨he, hd⟩
    · exact h.entry hr hsite
  · intro f r site hr hsite
    rcases get?_concat hr with ⟨-, rfl⟩ | hr
    · simp [hs] at hsite
    · obtain ⟨h1, h2, c', hc', h3⟩ := h.callee hr hsite
      exact ⟨h1, h2, c', get?_append_of_some hc' _, h3⟩

/-- A callee can be opened from any frame that is there. -/
theorem concat_callee (h : Linked frames) (hr : frames.get? site.caller = some r)
    (hs : c.site = some site) (he : c.isEntry = false) (hd : c.depth = r.depth + 1) :
    Linked (frames ++ [c]) := by
  constructor
  · intro f r' hr' hsite
    rcases get?_concat hr' with ⟨-, rfl⟩ | hr'
    · simp [hs] at hsite
    · exact h.entry hr' hsite
  · intro f r' site' hr' hsite
    rcases get?_concat hr' with ⟨hf, rfl⟩ | hr'
    · obtain rfl : site = site' := by simpa [hs] using hsite
      exact ⟨he, hf ▸ index_lt_length hr, r, get?_append_of_some hr _, hd⟩
    · obtain ⟨h1, h2, c', hc', h3⟩ := h.callee hr' hsite
      exact ⟨h1, h2, c', get?_append_of_some hc' _, h3⟩

/-- Links do not depend on what else is known about the calls. -/
theorem of_sameCalls (h : Linked old) (hlen : new.length = old.length) (hext : Extends old new) :
    Linked new := by
  have hback : ∀ {f r'}, new.get? f = some r' → ∃ r, old.get? f = some r ∧ r.SameCall r' := by
    intro f r' hr'
    have hlt : f.index < old.length := hlen ▸ index_lt_length hr'
    obtain ⟨r'', hr'', hs⟩ := hext (f := f) (List.getElem?_eq_getElem hlt)
    obtain rfl : r' = r'' := Option.some.inj (hr'.symm.trans hr'')
    exact ⟨_, List.getElem?_eq_getElem hlt, hs⟩
  constructor
  · intro f r' hr' hsite
    obtain ⟨r, hr, hs⟩ := hback hr'
    obtain ⟨h1, h2⟩ := h.entry hr (hs.site ▸ hsite)
    exact ⟨hs.isEntry.trans h1, hs.depth.trans h2⟩
  · intro f r' site hr' hsite
    obtain ⟨r, hr, hs⟩ := hback hr'
    obtain ⟨h1, h2, c, hc, h3⟩ := h.callee hr (hs.site ▸ hsite)
    obtain ⟨c', hc', hcs⟩ := hext hc
    exact ⟨hs.isEntry.trans h1, h2, c', hc', by rw [hs.depth, hcs.depth, h3]⟩

theorem update (h : Linked frames) (f : FrameId) {change : Frame → Frame}
    (hc : ∀ r : Frame, r.SameCall (change r)) : Linked (frames.update f change) :=
  h.of_sameCalls (length_update ..) (extends_update frames f hc)

end Linked

/-! ## Call sites and call paths -/

/-- Call sites are read off the frames' sites alone. -/
private theorem callSitesWithin_congr
    (h : ∀ g, new.get? g >>= Frame.site = old.get? g >>= Frame.site) (bound : Nat) (f : FrameId) :
    new.callSitesWithin bound f = old.callSitesWithin bound f := by
  induction bound generalizing f with
  | zero => rfl
  | succ bound ih => simp only [callSitesWithin, h, ih]

/-- What else becomes known about a call does not change its path. -/
theorem callerPath_update (frames : Frames) (f g : FrameId) {change : Frame → Frame}
    (h : ∀ r : Frame, r.SameCall (change r)) :
    (frames.update f change).callerPath g = frames.callerPath g := by
  have hsame : ∀ {α : Type} (F : Frame → α) (g : FrameId), (∀ r, F (change r) = F r) →
      ((frames.update f change).get? g).map F = (frames.get? g).map F := by
    intro α F g hF
    rw [get?_update]
    split
    next hg => subst hg; cases frames.get? g <;> simp [hF]
    next => rfl
  have hsites : (frames.update f change).callSites g = frames.callSites g := by
    refine callSitesWithin_congr (fun g => ?_) _ _
    have := hsame Frame.site g fun r => (h r).site
    cases h1 : (frames.update f change).get? g <;> cases h2 : frames.get? g <;> simp_all
  have hcaller : ∀ site : CallSite,
      (((frames.update f change).get? site.caller).map fun caller =>
        (⟨caller.signature, site.position⟩ : PathStep)) =
      (frames.get? site.caller).map fun caller => ⟨caller.signature, site.position⟩ :=
    fun site => hsame _ _ fun r => by rw [(h r).signature]
  simp only [callerPath, hsites, hcaller]

namespace Linked

/-- There are no more callers than older frames, so the bound does not matter. -/
private theorem callSitesWithin_eq (h : Linked frames) :
    ∀ {m n : Nat} {f : FrameId}, f.index ≤ m → f.index ≤ n →
      frames.callSitesWithin m f = frames.callSitesWithin n f := by
  have hzero : ∀ {n : Nat} {f : FrameId}, f.index ≤ 0 → frames.callSitesWithin n f = [] := by
    intro n f hf
    cases n with
    | zero => rfl
    | succ n =>
      cases hr : frames.get? f with
      | none => simp [callSitesWithin, hr]
      | some r =>
        cases hs : r.site with
        | none => simp [callSitesWithin, hr, hs]
        | some site =>
          have := (h.callee hr hs).2.1
          omega
  intro m
  induction m with
  | zero =>
    intro n f hm _
    rw [hzero hm, hzero hm]
  | succ m ih =>
    intro n f hm hn
    cases n with
    | zero => rw [hzero hn, hzero hn]
    | succ n =>
      cases hr : frames.get? f with
      | none => simp [callSitesWithin, hr]
      | some r =>
        cases hs : r.site with
        | none => simp [callSitesWithin, hr, hs]
        | some site =>
          have hlt := (h.callee hr hs).2.1
          simp [callSitesWithin, hr, hs, ih (f := site.caller) (n := n) (by omega) (by omega)]

theorem callSites_entry (h : Linked frames) (hr : frames.get? f = some r) (hs : r.site = none) :
    frames.callSites f = [] := by
  rw [callSites, h.callSitesWithin_eq (Nat.le_refl _) (Nat.le_succ _)]
  simp [callSitesWithin, hr, hs]

theorem callSites_callee (h : Linked frames) (hr : frames.get? f = some r)
    (hs : r.site = some site) : frames.callSites f = site :: frames.callSites site.caller := by
  have hlt := (h.callee hr hs).2.1
  rw [callSites, h.callSitesWithin_eq (Nat.le_refl _) (Nat.le_succ _), callSites,
    h.callSitesWithin_eq (Nat.le_refl _) (Nat.le_of_lt hlt)]
  simp [callSitesWithin, hr, hs]

theorem callerPath_entry (h : Linked frames) (hr : frames.get? f = some r) (hs : r.site = none) :
    frames.callerPath f = [] := by
  simp [callerPath, h.callSites_entry hr hs]

theorem callerPath_callee (h : Linked frames) (hr : frames.get? f = some r)
    (hs : r.site = some site) (hc : frames.get? site.caller = some c) :
    frames.callerPath f = frames.callerPath site.caller ++ [⟨c.signature, site.position⟩] := by
  simp [callerPath, h.callSites_callee hr hs, hc]

/-- The depth of a frame is the number of its callers. -/
theorem length_callerPath (h : Linked frames) (hr : frames.get? f = some r) :
    (frames.callerPath f).length = r.depth := by
  refine h.callerInduction (P := fun f r => (frames.callerPath f).length = r.depth) ?_ ?_ f r hr
  · intro f r hr hs
    rw [h.callerPath_entry hr hs, (h.entry hr hs).2, List.length_nil]
  · intro f r site c hr hs hc ih
    obtain ⟨-, -, c', hc', hd⟩ := h.callee hr hs
    obtain rfl : c = c' := Option.some.inj (hc.symm.trans hc')
    simp [h.callerPath_callee hr hs hc, ih, hd]

/-- The callers of a frame are frames. -/
theorem caller_of_mem_callSites (h : Linked frames) (hr : frames.get? f = some r)
    (hmem : site ∈ frames.callSites f) : ∃ c, frames.get? site.caller = some c := by
  refine h.callerInduction (P := fun f _ => ∀ site ∈ frames.callSites f,
    ∃ c, frames.get? site.caller = some c) ?_ ?_ f r hr site hmem
  · intro f r hr hs site hmem
    simp [h.callSites_entry hr hs] at hmem
  · intro f r site c hr hs hc ih site' hmem
    rw [h.callSites_callee hr hs] at hmem
    rcases List.mem_cons.1 hmem with rfl | hmem
    · exact ⟨c, hc⟩
    · exact ih site' hmem

end Linked

namespace Extends

theorem callSites_eq (hext : Extends old new) (hold : Linked old) (hnew : Linked new)
    (hr : old.get? f = some r) : new.callSites f = old.callSites f := by
  refine hold.callerInduction (P := fun f _ => new.callSites f = old.callSites f) ?_ ?_ f r hr
  · intro f r hr hs
    obtain ⟨r', hr', hsame⟩ := hext hr
    rw [hold.callSites_entry hr hs, hnew.callSites_entry hr' (hsame.site.trans hs)]
  · intro f r site c hr hs hc ih
    obtain ⟨r', hr', hsame⟩ := hext hr
    rw [hold.callSites_callee hr hs, hnew.callSites_callee hr' (hsame.site.trans hs), ih]

theorem callerPath_eq (hext : Extends old new) (hold : Linked old) (hnew : Linked new)
    (hr : old.get? f = some r) : new.callerPath f = old.callerPath f := by
  refine hold.callerInduction (P := fun f _ => new.callerPath f = old.callerPath f) ?_ ?_ f r hr
  · intro f r hr hs
    obtain ⟨r', hr', hsame⟩ := hext hr
    rw [hold.callerPath_entry hr hs, hnew.callerPath_entry hr' (hsame.site.trans hs)]
  · intro f r site c hr hs hc ih
    obtain ⟨r', hr', hsame⟩ := hext hr
    obtain ⟨c', hc', hcs⟩ := hext hc
    rw [hold.callerPath_callee hr hs hc,
      hnew.callerPath_callee hr' (hsame.site.trans hs) hc', ih, hcs.signature]

end Extends

/-! ## Frames beneath others -/

/-- The frame `f` was called from `a`, directly or through others. -/
inductive Beneath (frames : Frames) : FrameId → FrameId → Prop where
  | direct {f : FrameId} {r : Frame} {site : CallSite} :
    frames.get? f = some r → r.site = some site → Beneath frames f site.caller
  | through {f a : FrameId} {r : Frame} {site : CallSite} :
    frames.get? f = some r → r.site = some site → Beneath frames site.caller a →
      Beneath frames f a

theorem Beneath.exists_frame (h : Beneath frames f a) : ∃ r, frames.get? f = some r := by
  cases h with
  | direct hr _ | through hr _ _ => exact ⟨_, hr⟩

theorem Beneath.trans (h : Beneath frames f g) (h' : Beneath frames g a) : Beneath frames f a := by
  induction h with
  | direct hr hs => exact .through hr hs h'
  | through hr hs _ ih => exact .through hr hs (ih h')

theorem Beneath.isEntry (h : Beneath frames f a) (hl : Linked frames)
    (hr : frames.get? f = some r) : r.isEntry = false := by
  cases h with
  | direct hr' hs | through hr' hs _ =>
    obtain rfl := Option.some.inj (hr.symm.trans hr')
    exact (hl.callee hr hs).1

/-- Outer frames are older and less deep. -/
theorem Beneath.lt (h : Beneath frames f a) (hl : Linked frames) (hr : frames.get? f = some r) :
    a.index < f.index ∧ ∃ r', frames.get? a = some r' ∧ r'.depth < r.depth := by
  induction h generalizing r with
  | direct hr' hs =>
    obtain rfl := Option.some.inj (hr.symm.trans hr')
    obtain ⟨-, hlt, c, hc, hd⟩ := hl.callee hr hs
    exact ⟨hlt, c, hc, by omega⟩
  | through hr' hs _ ih =>
    obtain rfl := Option.some.inj (hr.symm.trans hr')
    obtain ⟨-, hlt, c, hc, hd⟩ := hl.callee hr hs
    obtain ⟨hlt', r'', hr'', hd'⟩ := ih hc
    exact ⟨by omega, r'', hr'', by omega⟩

namespace Linked

/-- The frames that a frame is beneath are its callers. -/
theorem beneath_iff_mem_callSites (h : Linked frames) (hr : frames.get? f = some r) :
    Beneath frames f a ↔ ∃ site ∈ frames.callSites f, site.caller = a := by
  refine h.callerInduction
    (P := fun f _ => Beneath frames f a ↔ ∃ site ∈ frames.callSites f, site.caller = a)
    ?_ ?_ f r hr
  · intro f r hr hs
    rw [h.callSites_entry hr hs]
    simp only [List.not_mem_nil, false_and, exists_false, iff_false]
    intro hb
    cases hb with
    | direct hr' hs' | through hr' hs' _ =>
      obtain rfl := Option.some.inj (hr.symm.trans hr')
      simp [hs] at hs'
  · intro f r site c hr hs hc ih
    rw [h.callSites_callee hr hs]
    simp only [List.mem_cons, exists_eq_or_imp, ← ih]
    constructor
    · intro hb
      cases hb with
      | direct hr' hs' =>
        obtain rfl := Option.some.inj (hr.symm.trans hr')
        obtain rfl := Option.some.inj (hs.symm.trans hs')
        exact .inl rfl
      | through hr' hs' hb =>
        obtain rfl := Option.some.inj (hr.symm.trans hr')
        obtain rfl := Option.some.inj (hs.symm.trans hs')
        exact .inr hb
    · rintro (rfl | hb)
      · exact .direct hr hs
      · exact .through hr hs hb

theorem isBeneath_iff (h : Linked frames) (hr : frames.get? f = some r) :
    frames.isBeneath f a = true ↔ Beneath frames f a := by
  rw [h.beneath_iff_mem_callSites hr]
  simp [isBeneath]

end Linked

theorem Extends.beneath_iff (hext : Extends old new) (hold : Linked old) (hnew : Linked new)
    (hr : old.get? f = some r) : Beneath new f a ↔ Beneath old f a := by
  obtain ⟨r', hr', -⟩ := hext hr
  rw [hnew.beneath_iff_mem_callSites hr', hold.beneath_iff_mem_callSites hr,
    hext.callSites_eq hold hnew hr]

end Frames

end FrameAudit
