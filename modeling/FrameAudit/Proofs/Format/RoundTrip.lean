import FrameAudit.Format.Call
import FrameAudit.Format.Report
import FrameAudit.Proofs.Json.Lossless

/-! # The formats of library values are lossless

Every value is written with all its fields and in one form, and readers accept that form wherever
they stand: the variants within a finding are read more loosely than elsewhere, but what is written
is read the same there. The only values that do not fit are those with a count of more than 64 bits;
no reader gives such a value. -/

namespace FrameAudit

open Json (Forms Inverts Lossless int64?_integer uint32?_integer inverts_count list?_ofList)

/-! ## Types, signatures and paths -/

theorem ErrorValue.ofJson?_toJson (e : ErrorValue) : ofJson? e.toJson = some e := rfl

theorem Constant.decode?_toJson (forms : Forms) (c : Constant) :
    decode? forms c.toJson = some c := by
  cases c with
  | int n =>
    change (do return .int (← (Json.integer n.toInt).int64?)) = some (Constant.int n)
    rw [int64?_integer]
    rfl
  | _ => cases forms <;> rfl

theorem DataType.ofJson?_toJson (t : DataType) : ofJson? t.toJson = some t := by
  have hfields : Json.list? Json.str? (.ofList .string t.fields) = some t.fields :=
    list?_ofList fun _ _ => rfl
  change (do return ⟨t.name, ← Json.list? Json.str? (.ofList .string t.fields)⟩) = some t
  rw [hfields]
  rfl

namespace Ty

mutual

theorem decode?_toJson (forms : Forms) : (t : Ty) → decode? forms t.toJson = some t
  | .bottom | .any | .bool => by cases forms <;> rfl
  | .const c => by
    -- a constant is not written as an array, so this is no union
    have hsimple : decode? forms (Ty.const c).toJson = decodeSimple? forms (Ty.const c).toJson := by
      cases c <;> rfl
    rw [hsimple]
    change (do return Ty.const (← Constant.decode? forms c.toJson)) = some (Ty.const c)
    rw [Constant.decode?_toJson]
    rfl
  | .concrete t => by
    change (do return Ty.concrete (← DataType.ofJson? t.toJson)) = some (Ty.concrete t)
    rw [DataType.ofJson?_toJson]
    rfl
  | .abstract name admitsBool => by cases forms <;> rfl
  | .union members => by
    change (decodeList? forms (toJsonList members)).map Ty.union = some (Ty.union members)
    rw [decodeList?_toJsonList forms members]
    rfl

theorem decodeList?_toJsonList (forms : Forms) :
    (types : List Ty) → decodeList? forms (toJsonList types) = some types
  | [] => rfl
  | t :: rest => by
    rw [toJsonList, decodeList?, decode?_toJson forms t, decodeList?_toJsonList forms rest]
    rfl

end

/-- A list of types, read in any forms. -/
theorem list?_decode?_ofList (forms : Forms) (types : List Ty) :
    Json.list? (decode? forms) (.ofList toJson types) = some types :=
  list?_ofList fun t _ => decode?_toJson forms t

end Ty

theorem Signature.decode?_toJson (forms : Forms) (s : Signature) :
    decode? forms s.toJson = some s := by
  change (do return ⟨s.callee, ← Json.list? (Ty.decode? forms) (.ofList Ty.toJson s.args)⟩) = some s
  rw [Ty.list?_decode?_ofList]
  rfl

theorem Position.ofJson?_toJson (p : Position) : ofJson? p.toJson = some p := by
  change (do return ⟨p.file, ← (Json.integer p.line.toNat).uint32?⟩) = some p
  rw [uint32?_integer]
  rfl

theorem PathStep.ofJson?_toJson (s : PathStep) : ofJson? s.toJson = some s := by
  change (do return ⟨← Signature.ofJson? s.signature.toJson, ← Position.ofJson? s.position.toJson⟩)
    = some s
  rw [Signature.ofJson?, Signature.decode?_toJson, Position.ofJson?_toJson]
  rfl

theorem CallPath.ofJson?_toJson (path : CallPath) : ofJson? (toJson path) = some path :=
  list?_ofList fun s _ => s.ofJson?_toJson

/-! ## Calls and bodies -/

/-- The number of candidates has at most 64 bits. -/
def SplitCase.Fits (s : SplitCase) : Prop := s.candidates < UInt64.size

theorem SplitCase.inverts : Inverts Fits toJson ofJson? where
  read_write s hs := by
    change (do return ⟨← Signature.ofJson? s.signature.toJson,
      ← (Json.integer s.candidates).count?⟩) = some s
    rw [Signature.ofJson?, Signature.decode?_toJson, inverts_count.read_write hs]
    rfl
  fits_of_read value s h := by
    obtain ⟨fields, -, h⟩ := Option.bind_eq_some_iff.1 h
    split at h
    next signature candidates =>
      obtain ⟨_, -, h⟩ := Option.bind_eq_some_iff.1 h
      obtain ⟨n, hn, h⟩ := Option.bind_eq_some_iff.1 h
      cases h
      exact inverts_count.of_required hn
    next => cases h

def Resolution.Fits (i : Resolution) : Prop := ∀ s ∈ i.splits, s.Fits

theorem Resolution.inverts : Inverts Fits toJson ofJson? where
  read_write i hi := by
    change (do return ⟨← Json.list? SplitCase.ofJson? (.ofList SplitCase.toJson i.splits)⟩) = some i
    rw [SplitCase.inverts.list.read_write hi]
    rfl
  fits_of_read value i h := by
    obtain ⟨fields, -, h⟩ := Option.bind_eq_some_iff.1 h
    split at h
    next splits =>
      obtain ⟨list, hlist, h⟩ := Option.bind_eq_some_iff.1 h
      cases h
      exact SplitCase.inverts.list.of_required hlist
    next => cases h

theorem Intrinsic.Role.ofJson?_toJson (r : Intrinsic.Role) : ofJson? r.toJson = some r := by
  cases r <;> rfl

theorem Intrinsic.ofJson?_toJson (i : Intrinsic) : ofJson? i.toJson = some i := by
  change (do return ⟨i.name, ← Role.ofJson? i.role.toJson, i.modeled⟩) = some i
  rw [Role.ofJson?_toJson]
  rfl

theorem Instruction.ofJson?_toJson (i : Instruction) : ofJson? i.toJson = some i := by
  cases i with
  | raise position expr =>
    change (do return Instruction.raise (← Position.ofJson? position.toJson) expr) = _
    rw [Position.ofJson?_toJson]
    rfl
  | undefCheck position slot =>
    change (do return Instruction.undefCheck (← Position.ofJson? position.toJson) slot) = _
    rw [Position.ofJson?_toJson]
    rfl
  | unreachable position =>
    change (do return Instruction.unreachable (← Position.ofJson? position.toJson)) = _
    rw [Position.ofJson?_toJson]
    rfl
  | statement position =>
    change (do return Instruction.statement (← Position.ofJson? position.toJson)) = _
    rw [Position.ofJson?_toJson]
    rfl

/-! ## Findings and reports -/

theorem ReportKind.ofJson?_toJson (k : ReportKind) : ofJson? k.toJson = some k :=
  k.ofName?_name

theorem RaiseSite.ofJson?_toJson (r : RaiseSite) : ofJson? r.toJson = some r := by
  change (do return ⟨← Position.ofJson? r.position.toJson, r.expr⟩) = some r
  rw [Position.ofJson?_toJson]
  rfl

namespace Finding

/-- The number of cases or components has at most 64 bits. -/
def Fits : Finding → Prop
  | .noMethodError _ splits | .nonBooleanCond _ splits => splits < UInt64.size
  | _ => True

/-- The fields of a finding are found under their names. -/
theorem ofJson?_toJson_eq (d : Finding) :
    ofJson? d.toJson =
      ofFields? d.kind (d.kind.fieldNames.map fun name => d.members.lookup name) := by
  cases d <;> rfl

theorem ofFields?_members {d : Finding} (h : d.Fits) :
    ofFields? d.kind (d.kind.fieldNames.map fun name => d.members.lookup name) = some d := by
  cases d with
  | uncaughtException raises =>
    change (do
      return .uncaughtException
        (← Json.list? RaiseSite.ofJson? (.ofList RaiseSite.toJson raises))) =
        some (uncaughtException raises)
    rw [list?_ofList fun r _ => r.ofJson?_toJson]
    rfl
  | noMethodError signatures splits =>
    change (do
      return .noMethodError
        (← Json.list? (Signature.decode? .loose) (.ofList Signature.toJson signatures))
        (← (Json.integer splits).count?)) = some (noMethodError signatures splits)
    rw [list?_ofList fun s _ => s.decode?_toJson .loose, inverts_count.read_write h]
    rfl
  | invalidInvoke argTypes =>
    change (do return .invalidInvoke (← ofFields?.types? (.ofList Ty.toJson argTypes))) =
      some (invalidInvoke argTypes)
    rw [ofFields?.types?, Ty.list?_decode?_ofList]
    rfl
  | nonBooleanCond types splits =>
    change (do
      return .nonBooleanCond (← ofFields?.types? (.ofList Ty.toJson types))
        (← (Json.integer splits).count?)) = some (nonBooleanCond types splits)
    rw [ofFields?.types?, Ty.list?_decode?_ofList, inverts_count.read_write h]
    rfl
  | seriousException error position =>
    change (do return .seriousException error (← Position.ofJson? position.toJson)) =
      some (seriousException error position)
    rw [Position.ofJson?_toJson]
    rfl
  | noFieldError type field =>
    change (do return .noFieldError (← Ty.decode? .loose type.toJson) field) =
      some (noFieldError type field)
    rw [Ty.decode?_toJson]
    rfl
  | invalidBuiltinCall op argTypes =>
    change (do return .invalidBuiltinCall op (← ofFields?.types? (.ofList Ty.toJson argTypes))) =
      some (invalidBuiltinCall op argTypes)
    rw [ofFields?.types?, Ty.list?_decode?_ofList]
    rfl
  | unimplementedBuiltinCall op argTypes =>
    change (do
      return .unimplementedBuiltinCall op (← ofFields?.types? (.ofList Ty.toJson argTypes))) =
        some (unimplementedBuiltinCall op argTypes)
    rw [ofFields?.types?, Ty.list?_decode?_ofList]
    rfl
  | _ => rfl

/-- Only the kinds with a count can be read as a finding with a count. -/
theorem fits_of_ofFields? {kind : ReportKind} {fields : List (Option Json)} {d : Finding}
    (h : ofFields? kind fields = some d) : d.Fits := by
  unfold ofFields? at h
  split at h
  case h_4 | h_8 =>
    obtain ⟨_, -, h⟩ := Option.bind_eq_some_iff.1 h
    obtain ⟨splits, hsplits, h⟩ := Option.bind_eq_some_iff.1 h
    cases h
    exact inverts_count.of_required hsplits
  case h_7 | h_9 | h_10 | h_12 | h_13 =>
    obtain ⟨_, -, h⟩ := Option.bind_eq_some_iff.1 h
    obtain ⟨_, -, h⟩ := Option.bind_eq_some_iff.1 h
    cases h
    trivial
  case h_1 | h_2 | h_3 | h_6 =>
    obtain ⟨_, -, h⟩ := Option.bind_eq_some_iff.1 h
    cases h
    trivial
  case h_5 | h_11 =>
    cases h
    trivial
  case h_14 => cases h

theorem inverts : Inverts Fits toJson ofJson? where
  read_write d hd := by rw [ofJson?_toJson_eq, ofFields?_members hd]
  fits_of_read value d h := by
    obtain ⟨⟨name, fields⟩, -, h⟩ := Option.bind_eq_some_iff.1 h
    obtain ⟨kind, -, h⟩ := Option.bind_eq_some_iff.1 h
    obtain ⟨values, -, h⟩ := Option.bind_eq_some_iff.1 h
    exact fits_of_ofFields? h

end Finding

def Report.Fits (r : Report) : Prop := r.finding.Fits

theorem Report.inverts : Inverts Fits toJson ofJson? where
  read_write r hr := by
    change (do return ⟨← CallPath.ofJson? r.path.toJson, ← Finding.ofJson? r.finding.toJson⟩) =
      some r
    rw [CallPath.ofJson?_toJson, Finding.inverts.read_write hr]
    rfl
  fits_of_read value r h := by
    obtain ⟨fields, -, h⟩ := Option.bind_eq_some_iff.1 h
    split at h
    next path finding =>
      obtain ⟨_, -, h⟩ := Option.bind_eq_some_iff.1 h
      obtain ⟨d, hd, h⟩ := Option.bind_eq_some_iff.1 h
      cases h
      exact Finding.inverts.of_required hd
    next => cases h

/-- The formats of all library values are lossless. -/
theorem formats_lossless :
    Lossless (fun _ => True) ErrorValue.toJson ErrorValue.ofJson? ∧
    Lossless (fun _ => True) Constant.toJson Constant.ofJson? ∧
    Lossless (fun _ => True) DataType.toJson DataType.ofJson? ∧
    Lossless (fun _ => True) Ty.toJson Ty.ofJson? ∧
    Lossless (fun _ => True) Signature.toJson Signature.ofJson? ∧
    Lossless (fun _ => True) Position.toJson Position.ofJson? ∧
    Lossless (fun _ => True) PathStep.toJson PathStep.ofJson? ∧
    Lossless (fun _ => True) CallPath.toJson CallPath.ofJson? ∧
    Lossless (fun _ => True) RaiseSite.toJson RaiseSite.ofJson? ∧
    Lossless (fun _ => True) ReportKind.toJson ReportKind.ofJson? ∧
    Lossless Finding.Fits Finding.toJson Finding.ofJson? ∧
    Lossless Report.Fits Report.toJson Report.ofJson? ∧
    Lossless (fun _ => True) Instruction.toJson Instruction.ofJson? ∧
    Lossless (fun _ => True) Intrinsic.Role.toJson Intrinsic.Role.ofJson? ∧
    Lossless (fun _ => True) Intrinsic.toJson Intrinsic.ofJson? ∧
    Lossless SplitCase.Fits SplitCase.toJson SplitCase.ofJson? ∧
    Lossless Resolution.Fits Resolution.toJson Resolution.ofJson? :=
  ⟨(Inverts.of_all ErrorValue.ofJson?_toJson).lossless,
    (Inverts.of_all (Constant.decode?_toJson .plain)).lossless,
    (Inverts.of_all DataType.ofJson?_toJson).lossless,
    (Inverts.of_all (Ty.decode?_toJson .plain)).lossless,
    (Inverts.of_all (Signature.decode?_toJson .plain)).lossless,
    (Inverts.of_all Position.ofJson?_toJson).lossless,
    (Inverts.of_all PathStep.ofJson?_toJson).lossless,
    (Inverts.of_all CallPath.ofJson?_toJson).lossless,
    (Inverts.of_all RaiseSite.ofJson?_toJson).lossless,
    (Inverts.of_all ReportKind.ofJson?_toJson).lossless,
    Finding.inverts.lossless,
    Report.inverts.lossless,
    (Inverts.of_all Instruction.ofJson?_toJson).lossless,
    (Inverts.of_all Intrinsic.Role.ofJson?_toJson).lossless,
    (Inverts.of_all Intrinsic.ofJson?_toJson).lossless,
    SplitCase.inverts.lossless,
    Resolution.inverts.lossless⟩

end FrameAudit
