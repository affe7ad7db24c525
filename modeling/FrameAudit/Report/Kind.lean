/-! # Kinds of reports -/

namespace FrameAudit

inductive ReportKind where
  | generatorError
  | localUndefVar
  | uncaughtException
  | noMethodError
  | invalidReturnTypeCall
  | invalidInvoke
  | globalUndefVar
  | nonBooleanCond
  | seriousException
  | noFieldError
  | divideError
  | invalidBuiltinCall
  | unimplementedBuiltinCall
deriving DecidableEq

namespace ReportKind

/-- All kinds, in order. -/
def all : List ReportKind :=
  [.generatorError, .localUndefVar, .uncaughtException, .noMethodError, .invalidReturnTypeCall,
    .invalidInvoke, .globalUndefVar, .nonBooleanCond, .seriousException, .noFieldError,
    .divideError, .invalidBuiltinCall, .unimplementedBuiltinCall]

/-- The place of a kind among all kinds. -/
def rank (k : ReportKind) : Nat := k.ctorIdx

def cmp (a b : ReportKind) : Ordering := compare a.rank b.rank

instance : Ord ReportKind := ⟨cmp⟩

def name : ReportKind → String
  | .generatorError => "GeneratorError"
  | .localUndefVar => "LocalUndefVar"
  | .uncaughtException => "UncaughtException"
  | .noMethodError => "NoMethodError"
  | .invalidReturnTypeCall => "InvalidReturnTypeCall"
  | .invalidInvoke => "InvalidInvoke"
  | .globalUndefVar => "GlobalUndefVar"
  | .nonBooleanCond => "NonBooleanCond"
  | .seriousException => "SeriousException"
  | .noFieldError => "NoFieldError"
  | .divideError => "DivideError"
  | .invalidBuiltinCall => "InvalidBuiltinCall"
  | .unimplementedBuiltinCall => "UnimplementedBuiltinCall"

def ofName? : String → Option ReportKind
  | "GeneratorError" => some .generatorError
  | "LocalUndefVar" => some .localUndefVar
  | "UncaughtException" => some .uncaughtException
  | "NoMethodError" => some .noMethodError
  | "InvalidReturnTypeCall" => some .invalidReturnTypeCall
  | "InvalidInvoke" => some .invalidInvoke
  | "GlobalUndefVar" => some .globalUndefVar
  | "NonBooleanCond" => some .nonBooleanCond
  | "SeriousException" => some .seriousException
  | "NoFieldError" => some .noFieldError
  | "DivideError" => some .divideError
  | "InvalidBuiltinCall" => some .invalidBuiltinCall
  | "UnimplementedBuiltinCall" => some .unimplementedBuiltinCall
  | _ => none

/-- Reports of the kind may share a path as long as their findings differ. -/
def repeats : ReportKind → Bool
  | .noMethodError | .nonBooleanCond | .seriousException => true
  | _ => false

@[simp]
theorem ofName?_name (k : ReportKind) : ofName? k.name = some k := by
  cases k <;> rfl

end ReportKind

end FrameAudit
