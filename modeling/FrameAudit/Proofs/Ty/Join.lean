import FrameAudit.Proofs.Ty.Order
import FrameAudit.Ty.Join

/-! # The join of canonical types

The join of canonical types is canonical, and its components are those of the types that are joined.
Since the components of a canonical type determine it, neither the order nor the grouping of the
types matters. One level of flattening is enough: no member of a canonical union is a union. -/

namespace FrameAudit.Ty

variable {t c : Ty} {types others members : List Ty}

/-- What a type contributes to a join are its components, unless it is bottom. -/
theorem mem_joinParts : c ∈ t.joinParts ↔ t.isBottom = false ∧ c ∈ t.components := by
  cases t with
  | union members => cases members <;> simp [joinParts, isBottom, components]
  | _ => simp [joinParts, isBottom, components]

theorem Canonical.isAtom_of_mem_joinParts (h : t.Canonical) (hany : t ≠ .any)
    (hc : c ∈ t.joinParts) : c.isAtom = true := by
  cases t with
  | union members => exact h.2.2 c hc
  | any => exact absurd rfl hany
  | bottom => exact absurd hc List.not_mem_nil
  | _ =>
    obtain rfl := List.mem_singleton.1 hc
    rfl

/-! ## Types made of their members -/

theorem canonical_ofMembers (hascending : members.Pairwise fun a b => compare a b = .lt)
    (hatoms : ∀ t ∈ members, t.isAtom = true) : (ofMembers members).Canonical := by
  match members with
  | [] => trivial
  | [t] =>
    have ht := hatoms t List.mem_cons_self
    cases t with
    | union => cases ht
    | _ => trivial
  | a :: b :: rest =>
    exact ⟨Nat.succ_le_succ (Nat.succ_le_succ (Nat.zero_le _)), hascending, hatoms⟩

theorem joinParts_ofMembers (hatoms : ∀ t ∈ members, t.isAtom = true) :
    (ofMembers members).joinParts = members := by
  match members with
  | [] => rfl
  | [t] =>
    have ht := hatoms t List.mem_cons_self
    cases t with
    | bottom | union => cases ht
    | _ => rfl
  | a :: b :: rest => rfl

theorem ofMembers_ne_any (hatoms : ∀ t ∈ members, t.isAtom = true) : ofMembers members ≠ .any := by
  intro heq
  have hparts := joinParts_ofMembers hatoms
  rw [heq] at hparts
  exact absurd (hatoms .any (hparts ▸ List.mem_singleton_self _)) Bool.false_ne_true

/-! ## The join -/

theorem join_of_any (h : .any ∈ types) : join types = .any := if_pos h

theorem join_of_not_any (h : .any ∉ types) :
    join types = ofMembers (ascendingSet (types.flatMap joinParts)) := if_neg h

/-- The join depends only on which types there are, and not on bottoms among them. -/
theorem join_congr (h : ∀ t, t ≠ .bottom → (t ∈ types ↔ t ∈ others)) :
    join types = join others := by
  have hparts : ∀ c, c ∈ types.flatMap joinParts ↔ c ∈ others.flatMap joinParts := by
    intro c
    rw [List.mem_flatMap, List.mem_flatMap]
    refine exists_congr fun t => and_congr_left fun hc => h t ?_
    rintro rfl
    exact absurd hc List.not_mem_nil
  have hany : .any ∈ types ↔ .any ∈ others := h .any (by simp)
  unfold join
  rw [ascendingSet_congr hparts]
  simp only [hany]

private theorem isAtom_of_mem_parts (h : ∀ t ∈ types, t.Canonical) (hany : .any ∉ types) :
    ∀ c ∈ ascendingSet (types.flatMap joinParts), c.isAtom = true := by
  intro c hc
  obtain ⟨t, ht, hc⟩ := List.mem_flatMap.1 (mem_ascendingSet.1 hc)
  exact (h t ht).isAtom_of_mem_joinParts (fun heq => hany (heq ▸ ht)) hc

theorem canonical_join (h : ∀ t ∈ types, t.Canonical) : (join types).Canonical := by
  by_cases hany : .any ∈ types
  · rw [join_of_any hany]
    trivial
  · rw [join_of_not_any hany]
    exact canonical_ofMembers (pairwise_ascendingSet _) (isAtom_of_mem_parts h hany)

theorem join_eq_any_iff (h : ∀ t ∈ types, t.Canonical) : join types = .any ↔ .any ∈ types := by
  refine ⟨fun heq => ?_, join_of_any⟩
  by_contra hany
  rw [join_of_not_any hany] at heq
  exact ofMembers_ne_any (isAtom_of_mem_parts h hany) heq

theorem mem_joinParts_join (h : ∀ t ∈ types, t.Canonical) (hany : .any ∉ types) :
    c ∈ (join types).joinParts ↔ ∃ t ∈ types, c ∈ t.joinParts := by
  rw [join_of_not_any hany, joinParts_ofMembers (isAtom_of_mem_parts h hany), mem_ascendingSet,
    List.mem_flatMap]

theorem join_eq_bottom (h : ∀ t ∈ types, t.isBottom = true) : join types = .bottom := by
  have hany : .any ∉ types := fun hmem => absurd (h _ hmem) Bool.false_ne_true
  have hparts : types.flatMap joinParts = [] := by
    refine List.flatMap_eq_nil_iff.2 fun t ht => List.eq_nil_iff_forall_not_mem.2 fun c hc => ?_
    exact absurd ((mem_joinParts.1 hc).1.symm.trans (h t ht)) Bool.false_ne_true
  rw [join_of_not_any hany, hparts]
  rfl

theorem isBottom_join_iff (h : ∀ t ∈ types, t.Canonical) :
    (join types).isBottom = true ↔ ∀ t ∈ types, t.isBottom = true := by
  refine ⟨fun hjoin t ht => ?_, fun hb => join_eq_bottom hb ▸ rfl⟩
  by_contra hb
  rw [Bool.not_eq_true] at hb
  by_cases hany : .any ∈ types
  · rw [join_of_any hany] at hjoin
    cases hjoin
  · -- a part of the type would be a part of the join
    obtain ⟨c, hc⟩ := exists_mem_components hb
    have hpart := (mem_joinParts_join h hany).2 ⟨t, ht, mem_joinParts.2 ⟨hb, hc⟩⟩
    exact absurd ((mem_joinParts.1 hpart).1.symm.trans hjoin) Bool.false_ne_true

/-- The components of a join of types that are not all bottom. -/
theorem mem_components_join (h : ∀ t ∈ types, t.Canonical) (hany : .any ∉ types)
    (hne : ∃ t ∈ types, t.isBottom = false) :
    c ∈ (join types).components ↔ ∃ t ∈ types, t.isBottom = false ∧ c ∈ t.components := by
  have hb : (join types).isBottom = false := by
    obtain ⟨t, ht, hb⟩ := hne
    rw [← Bool.not_eq_true, isBottom_join_iff h]
    exact fun hall => absurd (hb.symm.trans (hall t ht)) Bool.false_ne_true
  have hparts := mem_joinParts_join (c := c) h hany
  simpa only [mem_joinParts, hb, true_and] using hparts

/-- Joining joins. -/
theorem join_join (h : ∀ t ∈ types, t.Canonical) (h' : ∀ t ∈ others, t.Canonical) :
    join [join types, join others] = join (types ++ others) := by
  have hiff : .any ∈ [join types, join others] ↔ .any ∈ types ++ others := by
    rw [List.mem_pair, List.mem_append, eq_comm, join_eq_any_iff h, eq_comm, join_eq_any_iff h']
  by_cases hany : .any ∈ types ++ others
  · rw [join_of_any hany, join_of_any (hiff.2 hany)]
  · obtain ⟨hany₁, hany₂⟩ := not_or.1 (mt List.mem_append.2 hany)
    rw [join_of_not_any hany, join_of_not_any (mt hiff.1 hany)]
    refine congrArg ofMembers (ascendingSet_congr fun c => ?_)
    simp only [List.flatMap_append, List.mem_append, List.mem_flatMap, List.mem_cons,
      List.not_mem_nil, or_false, exists_eq_or_imp, exists_eq_left, mem_joinParts_join h hany₁,
      mem_joinParts_join h' hany₂]

/-- The join of canonical types is canonical. It is any if any is among them, and otherwise it has
the components of those that are not bottom, or is bottom if there are none. So it does not matter
in which order and how often the types are given, or how many bottoms, and joins can be joined. -/
theorem join_is_canonical_join (h : ∀ t ∈ types, t.Canonical) :
    (join types).Canonical ∧
    (.any ∈ types → join types = .any) ∧
    (.any ∉ types → (∀ t ∈ types, t.isBottom = true) → join types = .bottom) ∧
    (.any ∉ types → (∃ t ∈ types, t.isBottom = false) → ∀ c,
      c ∈ (join types).components ↔ ∃ t ∈ types, t.isBottom = false ∧ c ∈ t.components) ∧
    (∀ others, others.Perm types → join others = join types) ∧
    (∀ xs ys, types = xs ++ ys → ∀ t ∈ types, join (xs ++ t :: ys) = join types) ∧
    (∀ xs ys, types = xs ++ ys → join (xs ++ .bottom :: ys) = join types) ∧
    (∀ others, (∀ t ∈ others, t.Canonical) →
      join [join types, join others] = join (types ++ others)) := by
  refine ⟨canonical_join h, join_of_any, fun _ => join_eq_bottom,
    fun hany hne c => mem_components_join h hany hne,
    fun others hperm => join_congr fun t _ => hperm.mem_iff, ?_, ?_, fun others => join_join h⟩
  · rintro xs ys rfl t ht
    refine join_congr fun u _ => ⟨fun hu => ?_, fun hu => ?_⟩
    · rcases List.mem_append.1 hu with hu | hu
      · exact List.mem_append_left _ hu
      · rcases List.mem_cons.1 hu with rfl | hu
        · exact ht
        · exact List.mem_append_right _ hu
    · exact (List.sublist_cons_self t ys).append_left xs |>.subset hu
  · rintro xs ys rfl
    refine join_congr fun u hu => ?_
    simp [hu]

/-- Two unions that share a member, between them a bottom. -/
def sharedMember : List Ty :=
  [.union [.bool, .concrete ⟨"Int64", []⟩], .bottom,
    .union [.concrete ⟨"Int64", []⟩, .abstract "Number" false]]

theorem join_is_canonical_join_sharedMember :
    (∀ t ∈ sharedMember, t.Canonical) ∧
    join sharedMember = .union [.bool, .concrete ⟨"Int64", []⟩, .abstract "Number" false] ∧
    (join sharedMember).Canonical ∧
    join sharedMember.reverse = join sharedMember ∧
    join [join sharedMember, join [.const .nothing]] =
      join (sharedMember ++ [.const .nothing]) := by
  have hcanonical : ∀ t ∈ sharedMember, t.Canonical := by decide +kernel
  obtain ⟨hjoin, -, -, -, hperm, -, -, hjoins⟩ := join_is_canonical_join hcanonical
  exact ⟨hcanonical, by decide +kernel, hjoin, hperm _ (List.reverse_perm _),
    hjoins [.const .nothing] (by decide)⟩

end FrameAudit.Ty
