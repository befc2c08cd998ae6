import CircuitQir.Circuit.Json
import CircuitQir.Lowering.Program
import CircuitQir.Text.Utf8
/-!
# Keeping what lowering produces

A `Sink` is offered the circuit before it is lowered, and the two renderings if that succeeds. A
sink may fail; then a warning is noted and everything goes on as if nothing had happened.
-/

namespace CircuitQir

/-- Something that lowering takes in or produces. -/
inductive Artifact where
  | circuit (document : String)
  | text (content : String)
  | bitcode (bytes : List UInt8)
deriving DecidableEq

namespace Artifact

/-- The extension of files that hold such an artifact. -/
def extension : Artifact → String
  | circuit _ => "json"
  | text _ => "ll"
  | bitcode _ => "bc"

def contents : Artifact → List UInt8
  | circuit document => Utf8.encode document
  | text content => Utf8.encode content
  | bitcode bytes => bytes

end Artifact

/-- A place where artifacts can be kept, with a state of its own. A failure has a text. -/
structure Sink (σ : Type) where
  persist : σ → String → Artifact → σ × Except String Unit

/-- The state of a sink, and the warnings so far. -/
structure Kept (σ : Type) where
  state : σ
  warnings : List String

namespace Sink

/-- Offers an artifact. -/
def offer {σ : Type} (sink : Sink σ) (name : String) (k : Kept σ) (a : Artifact) : Kept σ :=
  match sink.persist k.state name a with
  | (state, .ok ()) => ⟨state, k.warnings⟩
  | (state, .error e) =>
    ⟨state, k.warnings ++ ["could not persist " ++ name ++ "." ++ a.extension ++ ": " ++ e]⟩

end Sink

namespace Circuit

/-- Lowers a circuit and offers what there is to a sink. -/
def lowerWith {σ : Type} (sink : Sink σ) (state : σ) (c : Circuit) (o : Options) :
    Kept σ × Except Error Program :=
  let name := entryPointName c o
  let k := sink.offer name ⟨state, []⟩ (.circuit c.document)
  match c.lower o with
  | .error e => (k, .error e)
  | .ok p =>
    let k := sink.offer name k (.text p.text)
    (sink.offer name k (.bitcode p.bitcode), .ok p)

end Circuit

end CircuitQir
