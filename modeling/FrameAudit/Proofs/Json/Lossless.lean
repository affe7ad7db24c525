import FrameAudit.Json.Shape

/-! # Lossless formats

A format writes values as JSON and reads them back. It is `Lossless` if nothing of a value is lost
on the way: what was written is read as it was, so different values are written differently, and a
value that was read from any form at all is read again from its written form. All this follows if
reading undoes writing on the values that fit the format, and reading gives no other values
(`Inverts`). -/

namespace FrameAudit.Json

variable {α : Type} {fits : α → Prop} {write : α → Json} {read? : Json → Option α}

/-- Reading undoes writing on the values that fit, and gives only those. -/
structure Inverts (fits : α → Prop) (write : α → Json) (read? : Json → Option α) : Prop where
  read_write : ∀ ⦃v⦄, fits v → read? (write v) = some v
  fits_of_read : ∀ ⦃value v⦄, read? value = some v → fits v

/-- Nothing is lost of the values that fit, nor of those that are read. -/
structure Lossless (fits : α → Prop) (write : α → Json) (read? : Json → Option α) : Prop where
  read_write : ∀ v, fits v → read? (write v) = some v
  injective : ∀ v w, fits v → fits w → write v = write w → v = w
  reread : ∀ value v, read? value = some v → read? (write v) = some v

namespace Inverts

/-- A format that all values fit. -/
theorem of_all (h : ∀ v, read? (write v) = some v) : Inverts (fun _ => True) write read? :=
  ⟨fun v _ => h v, fun _ _ _ => trivial⟩

theorem lossless (h : Inverts fits write read?) : Lossless fits write read? where
  read_write _ hv := h.read_write hv
  injective _ _ hv hw heq :=
    Option.some.inj ((h.read_write hv).symm.trans (heq ▸ h.read_write hw))
  reread _ _ hread := h.read_write (h.fits_of_read hread)

/-- A field that is read fits. -/
theorem of_required (h : Inverts fits write read?) {field : Option Json} {v : α}
    (hread : required read? field = some v) : fits v := by
  obtain ⟨value, -, hv⟩ := Option.bind_eq_some_iff.1 hread
  exact h.fits_of_read hv

end Inverts

/-! ## Numbers -/

theorem int64?_integer (n : Int64) : (integer n.toInt).int64? = some n := by
  rw [integer, int64?, if_pos ⟨n.minValue_le_toInt, n.toInt_le⟩, Int64.ofInt_toInt]

theorem uint32?_integer (n : UInt32) : (integer n.toNat).uint32? = some n := by
  rw [integer, uint32?, if_pos ⟨Int.natCast_nonneg _, n.toNat_lt⟩, Int.toNat_natCast,
    UInt32.ofNat_toNat]

/-- The numbers of things that are written and read are those of at most 64 bits. -/
theorem inverts_count : Inverts (· < UInt64.size) (fun n : Nat => integer n) count? where
  read_write n hn := by
    rw [integer, count?, Int.toNat_natCast, if_pos ⟨Int.natCast_nonneg _, hn⟩]
  fits_of_read value n h := by
    unfold count? at h
    split at h
    · obtain ⟨⟨-, hn⟩, h⟩ := Option.ite_none_right_eq_some.1 h
      exact Option.some.inj h ▸ hn
    · cases h

/-! ## Lists -/

theorem list?_ofList {elements : List α} (h : ∀ v ∈ elements, read? (write v) = some v) :
    list? read? (ofList write elements) = some elements := by
  change (elements.map write).mapM read? = some elements
  induction elements with
  | nil => rfl
  | cons v rest ih =>
    have hrest := ih fun w hw => h w (List.mem_cons_of_mem _ hw)
    rw [List.map_cons, List.mapM_cons, h v List.mem_cons_self, hrest]
    rfl

theorem forall_mem_of_mapM {P : α → Prop} (h : ∀ value v, read? value = some v → P v)
    {values : List Json} {elements : List α} (hread : values.mapM read? = some elements) :
    ∀ v ∈ elements, P v := by
  induction values generalizing elements with
  | nil =>
    cases hread
    exact fun v hv => absurd hv List.not_mem_nil
  | cons value values ih =>
    rw [List.mapM_cons] at hread
    obtain ⟨v, hv, hread⟩ := Option.bind_eq_some_iff.1 hread
    obtain ⟨rest, hrest, hread⟩ := Option.bind_eq_some_iff.1 hread
    cases hread
    exact List.forall_mem_cons.2 ⟨h value v hv, ih hrest⟩

theorem Inverts.list (h : Inverts fits write read?) :
    Inverts (fun elements => ∀ v ∈ elements, fits v) (ofList write) (list? read?) where
  read_write elements hfits := list?_ofList fun v hv => h.read_write (hfits v hv)
  fits_of_read value elements hread := by
    unfold list? at hread
    split at hread
    · exact forall_mem_of_mapM h.fits_of_read hread
    · cases hread

end FrameAudit.Json
