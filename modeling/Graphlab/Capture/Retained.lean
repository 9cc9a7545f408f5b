import Graphlab.Lib.Bytes
import Graphlab.Lib.Json

/-!
# Retained captures

What the agent knows of a capture when it reads its artifacts: the descriptor it
registered, the manifest that the worker published and the segment files.  Identifiers of
runs and captures are hexadecimal texts from `random_hex`; what matters here is that they
have no slash.

## Main definitions

* `Descriptor` — a capture as the run registers it.
* `Disk` — the manifests and files of the capture directories.
* `Run` — a run with all its captures.
-/

namespace Graphlab.Capture

open Lib

/-- An identifier without a slash. -/
structure Name where
  text : String
  plain : '/' ∉ text.toList
  deriving DecidableEq

/-- A capture as the run registers it. -/
structure Descriptor where
  id : Name
  runId : String
  edge : String
  epoch : String
  mapping : Json
  bootId : String
  directory : String
  interface : String
  canonicalEndpoint : String
  deriving DecidableEq

structure Edge where
  id : String
  endpoints : String × String
  deriving DecidableEq, Repr

/-- A run.  Its captures are those of `captureHistory`, then those of `captures`. -/
structure Run where
  id : Name
  edges : List Edge := []
  captures : List Descriptor := []
  captureCoverage : Option String := none
  deriving DecidableEq

/-- A segment file when it is opened without following links. -/
inductive File
  | absent
  /-- No regular file. -/
  | irregular
  /-- A file of which a read fails. -/
  | unreadable (size : ℕ)
  | content (bytes : Bytes)
  deriving DecidableEq, Repr

/-- What stands in the capture directories.  A manifest is there if `load` returns it. -/
structure Disk where
  manifest : String → Option Json
  file : String → File

end Graphlab.Capture
