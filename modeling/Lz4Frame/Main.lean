import Lz4Frame.Cli.Run

/-! The program. It loads files, reads the clock and prints, and leaves the rest to `Cli.run`. -/

namespace Lz4Frame.Cli

/-- The words of the system for what went wrong. -/
def systemReason : IO.Error → String
  | .noFileOrDirectory _ code _ => s!"No such file or directory (os error {code})"
  | .permissionDenied _ code details => s!"{details} (os error {code})"
  | .inappropriateType _ code details => s!"{details} (os error {code})"
  | .otherError code details => s!"{details} (os error {code})"
  | error => toString error

def loadFile (path : String) : IO (Except LoadError Bytes) := do
  match ← EIO.toBaseIO (IO.FS.Handle.mk path .read) with
  | .error error => return .error (.opening (systemReason error))
  | .ok handle =>
    match ← EIO.toBaseIO handle.readBinToEnd with
    | .error error => return .error (.reading (systemReason error))
    | .ok bytes => return .ok bytes.data

/-- The surroundings of a real run. A decompression is carried out between two looks at the clock,
and nobody cancels. -/
def surroundings : Environment IO where
  decompress body history maxSize := IO.lazyPure fun _ => Decompressor.lz4 body history maxSize
  now := BaseIO.toIO IO.monoNanosNow
  cancelled := pure false

/-- An error with its causes, numbered from the outermost. -/
def errorText (chain : List String) : String :=
  "Error:" ++ String.join (chain.mapIdx fun i cause => s!"\n   {i}: {cause}")

end Lz4Frame.Cli

open Lz4Frame.Cli in
def main (args : List String) : IO UInt32 := do
  let outcome ← run surroundings loadFile args
  if let some error := outcome.refusal then
    IO.eprintln s!"error: {error.message}"
  for entry in outcome.log do
    IO.eprintln entry.line
  for chain in outcome.errors do
    IO.eprintln (errorText chain)
  IO.print outcome.output
  return outcome.exitCode
