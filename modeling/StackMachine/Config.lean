import StackMachine.Datum
import StackMachine.Machine.Limits

/-!
# Configuration

A configuration sets limits for the runs of the machine.  It is a record with three fields
that may all be missing, and nothing else.  A configuration that is refused is reported
with everything that is wrong with it.
-/

namespace StackMachine

/-- The fields of a configuration. -/
inductive Setting where
  | maxSteps | memoryLimit | heapLimit
deriving DecidableEq, Repr

namespace Setting

/-- Every field, in its order. -/
def all : List Setting := [maxSteps, memoryLimit, heapLimit]

/-- The name of a field. -/
def name : Setting → Text
  | maxSteps => "maxSteps"
  | memoryLimit => "memoryLimit"
  | heapLimit => "heapLimit"

/-- Whether a number is too small for a field: there has to be at least one step, and no
size is negative. -/
def tooSmall (x : Number) : Setting → Bool
  | maxSteps => x.le (.int 0)
  | _ => !Number.le (.int 0) x

/-- The message about a number that is too small for a field. -/
def tooSmallMessage : Setting → Text
  | maxSteps => "Number must be greater than 0"
  | _ => "Number must be greater than or equal to 0"

end Setting

/-- What is wrong with a configuration. -/
inductive ConfigFlaw where
  /-- There is no value at all. -/
  | missing
  /-- The value is not a record but of another type. -/
  | notObject (type : Text)
  /-- A field is not a number but of another type. -/
  | notNumber (setting : Setting) (type : Text)
  /-- The number in a field is no integer. -/
  | fraction (setting : Setting)
  /-- The number in a field is too small. -/
  | tooSmall (setting : Setting)
  /-- There are fields that a configuration does not have. -/
  | unexpected (keys : List Text)
deriving DecidableEq, Repr

namespace ConfigFlaw

/-- The field that a flaw is about. -/
def setting? : ConfigFlaw → Option Setting
  | notNumber setting _ => some setting
  | fraction setting => some setting
  | tooSmall setting => some setting
  | _ => none

/-- The message of a flaw. -/
def message : ConfigFlaw → Text
  | missing => "Required"
  | notObject type => Text.concat ["Expected object, received ", type]
  | notNumber _ type => Text.concat ["Expected number, received ", type]
  | fraction _ => "Expected integer, received float"
  | tooSmall setting => setting.tooSmallMessage
  | unexpected keys => unexpectedMessage keys

/-- A flaw as text: the field that it is about, and its message. -/
def toText (f : ConfigFlaw) : Text :=
  match f.setting? with
  | some setting => Text.concat [setting.name, ": ", f.message]
  | none => f.message

end ConfigFlaw

/-- What a configuration sets; what is missing is left to the defaults. -/
structure Settings where
  maxSteps : Option Number
  memoryLimit : Option Number
  heapLimit : Option Number
deriving DecidableEq, Repr

namespace Settings

/-- What is wrong with the value of a field. -/
def fieldFlaws (setting : Setting) : Datum → List ConfigFlaw
  | .absent => []
  | .number .nan => [.notNumber setting (Datum.number .nan).typeName]
  | .number x =>
    (if x.isInteger then [] else [.fraction setting])
      ++ (if setting.tooSmall x then [.tooSmall setting] else [])
  | d => [.notNumber setting d.typeName]

/-- What is wrong with a value as a configuration: first its fields, and then those that it
should not have. -/
def flaws : Datum → List ConfigFlaw
  | .absent => [.missing]
  | .record fields =>
    let own := Setting.all.flatMap fun s => fieldFlaws s ((Datum.record fields).field s.name)
    match Fields.unexpected (Setting.all.map Setting.name) fields with
    | [] => own
    | keys => own ++ [.unexpected keys]
  | d => [.notObject d.typeName]

/-- The number in a field of a value. -/
def number? (d : Datum) (setting : Setting) : Option Number :=
  match d.field setting.name with
  | .number x => some x
  | _ => none

/-- What a value sets as a configuration, or everything that is wrong with it. -/
def ofDatum (d : Datum) : Except (List ConfigFlaw) Settings :=
  match flaws d with
  | [] =>
    .ok { maxSteps := number? d .maxSteps, memoryLimit := number? d .memoryLimit
          heapLimit := number? d .heapLimit }
  | fs => .error fs

end Settings

/-- A configuration that is complete. -/
structure Config where
  maxSteps : Option Number
  memoryLimit : Number
  heapLimit : Number
deriving DecidableEq, Repr

namespace Config

/-- The configuration of settings, with the defaults where they set nothing. -/
def ofSettings (s : Settings) : Config :=
  { maxSteps := s.maxSteps
    memoryLimit := s.memoryLimit.getD (.ofNat Limits.defaultSize)
    heapLimit := s.heapLimit.getD (.ofNat Limits.defaultSize) }

/-- The configuration where nothing is set. -/
def default : Config := ofSettings ⟨none, none, none⟩

/-- The options of a machine that a configuration sets. -/
def toOptions (c : Config) : LimitOptions :=
  { maxSteps := (c.maxSteps.map Datum.number).getD .absent
    memoryLimit := .number c.memoryLimit
    heapLimit := .number c.heapLimit }

end Config

end StackMachine
