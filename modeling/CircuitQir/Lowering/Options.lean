import CircuitQir.Json.Decoding
import CircuitQir.Lowering.Profile
/-!
# Options of lowering

What a user can choose, with a default for everything, and its JSON document.
-/

namespace CircuitQir

open Json (Decoder Field Shape)

/-- How a circuit is lowered. -/
structure Options where
  /-- The profile that the program declares. -/
  profile : Profile
  /-- Whether calls that record the classical registers end the program. -/
  recordOutput : Bool
  /-- Whether a barrier becomes a call. Otherwise it leaves no trace. -/
  emitBarriers : Bool
  /-- The name of the entry point, if it is not to be that of the circuit. -/
  entryPoint : Option String
deriving DecidableEq, Repr

namespace Options

def default : Options := ⟨.base, true, false, none⟩

def toJson (o : Options) : Json :=
  .object
    [("profile", .string o.profile.name), ("recordOutput", .bool o.recordOutput),
      ("emitBarrierCalls", .bool o.emitBarriers),
      ("entryPoint",
        match o.entryPoint with
        | some s => .string s
        | none => .null)]

def profileDecoder : Decoder Profile := Decoder.named Profile.all Profile.name

def nameDecoder : Decoder (Option String) := Decoder.nullable Decoder.string

def shape : Shape :=
  ⟨"QirOptions",
    [.optional "profile" profileDecoder, .optional "recordOutput" Decoder.boolean,
      .optional "emitBarrierCalls" Decoder.boolean, .optional "entryPoint" nameDecoder]⟩

def decoder : Decoder Options := fun t => do
  let ms ← shape.members t
  return {
    profile := ← ms.getD "profile" profileDecoder default.profile
    recordOutput := ← ms.getD "recordOutput" Decoder.boolean default.recordOutput
    emitBarriers := ← ms.getD "emitBarrierCalls" Decoder.boolean default.emitBarriers
    entryPoint := ← ms.getD "entryPoint" nameDecoder default.entryPoint }

end Options

end CircuitQir
