import Graphlab.Lib.Collect
import Graphlab.Lib.Document

/-!
# Checks of a document

The helpers of `contracts.cpp`, workload contracts and artifact locks.  A check returns
what it read or throws an `Error` that names the field.

SHA-256 and `inet_pton` are the library's; they are parameters (`Platform`).

## Main definitions

* `Error`, `fields`, `need`, `str`, `number`, `id`, `hash`.
* `Cidr`, `cidr` — IPv4 networks.
* `workload`, `validateLock` — contracts and locks.
-/

namespace Graphlab.Contracts

open Lib

structure Error where
  code : String
  path : String
  message : String
  deriving DecidableEq, Repr

/-- What the checks take from libraries. -/
structure Platform where
  /-- SHA-256 of the text of a value. -/
  digest : Json → String
  /-- `inet_pton`, the address in host order. -/
  inetPton : String → Option (BitVec 32)

/-! ## Fields -/

/-- `fail`. -/
def fail {α : Type} (path message : String) (code : String := "validation_error") :
    Except Error α :=
  .error ⟨code, path, message⟩

/-- Fail unless a condition holds. -/
def ensure (path message : String) (condition : Bool) (code : String := "validation_error") :
    Except Error Unit :=
  check ⟨code, path, message⟩ condition

/-- `object`. -/
def object (v : Json) (p : String) : Except Error (List (String × Json)) :=
  match v with
  | .object fs => .ok fs
  | _ => fail p "expected mapping"

/-- `fields`. -/
def fields (v : Json) (p : String) (allowed : List String) : Except Error Unit := do
  let fs ← object v p
  match fs.find? fun f => !allowed.contains f.1 with
  | some f => fail (p ++ "." ++ f.1) "unknown field"
  | none => .ok ()

/-- `need`. -/
def need (v : Json) (k p : String) : Except Error Json :=
  match v.find? k with
  | some x => .ok x
  | none => fail (p ++ "." ++ k) "required field missing"

/-- `str`. -/
def str (v : Json) (p : String) : Except Error String :=
  match v with
  | .string s => .ok s
  | _ => fail p "expected string"

/-- `getstr`. -/
def getstr (v : Json) (k p : String) : Except Error String := do
  let x ← need v k p
  str x (p ++ "." ++ k)

/-- `boolean`. -/
def boolean (v : Json) (p : String) : Except Error Bool :=
  match v with
  | .bool b => .ok b
  | _ => fail p "expected boolean"

/-- `number`. -/
def number (v : Json) (p : String) (lo hi : ℤ) : Except Error ℤ :=
  let outside := "integer outside [" ++ toString lo ++ "," ++ toString hi ++ "]"
  match v with
  | .number n => if lo ≤ n ∧ n ≤ hi then .ok n else fail p outside
  | _ => fail p outside

/-- `array`. -/
def array (v : Json) (p : String) : Except Error (List Json) :=
  match v with
  | .array vs => .ok vs
  | _ => fail p "expected sequence"

/-- `[A-Za-z0-9_-]`. -/
def wordChar (c : Char) : Bool := c.isAlphanum || c == '_' || c == '-'

/-- `[A-Za-z][A-Za-z0-9_-]{0,63}`. -/
def identifier (s : String) : Bool :=
  match s.toList with
  | c :: cs => c.isAlpha && decide (cs.length ≤ 63) && cs.all wordChar
  | [] => false

/-- `id`. -/
def id (s p : String) : Except Error Unit :=
  ensure p "identifier must match [A-Za-z][A-Za-z0-9_-]\x7b0,63\x7d" (identifier s)

/-- `sha256:[0-9a-f]{64}`. -/
def sha256 (s : String) : Bool :=
  let hex := s.toList.drop 7
  s.toList.take 7 == "sha256:".toList && hex.length == 64 &&
    hex.all fun c => c.isDigit || ('a' ≤ c && c ≤ 'f')

/-- `hash`. -/
def hash (s p : String) : Except Error Unit :=
  ensure p "expected resolved lowercase SHA-256 digest" (sha256 s)

/-- `features`. -/
def features (v : Json) (p : String) : Except Error Unit :=
  match v.find? "requiredFeatures" with
  | none => .ok ()
  | some fs => do
      let fs ← array fs (p ++ ".requiredFeatures")
      ensure (p ++ ".requiredFeatures") "no optional required features supported in M0" fs.isEmpty
        "unsupported_feature"

/-! ## What a check accepts -/

section Accepts

variable {α : Type} {v x : Json} {k p s message code : String}

@[simp] theorem fail_eq_ok {a : α} : fail p message code = .ok a ↔ False := by
  simp [fail]

@[simp] theorem ensure_eq_ok {condition : Bool} {u : Unit} :
    ensure p message condition code = .ok u ↔ condition = true := by
  simp [ensure]

@[simp] theorem pure_eq_ok {a b : α} : (pure a : Except Error α) = .ok b ↔ a = b := by
  simp [pure, Except.pure]

@[simp] theorem object_eq_ok {fs : List (String × Json)} :
    object v p = .ok fs ↔ v = .object fs := by
  cases v <;> simp [object]

/-- An object with no other keys than these. -/
def HasFields (v : Json) (allowed : List String) : Prop :=
  ∃ fs, v = .object fs ∧ ∀ k ∈ fs.map Prod.fst, k ∈ allowed

@[simp] theorem fields_eq_ok {allowed : List String} {u : Unit} :
    fields v p allowed = .ok u ↔ HasFields v allowed := by
  rw [fields, bind_eq_ok]
  constructor
  · rintro ⟨fs, hv, h⟩
    split at h
    · cases h
    · rename_i hnone
      refine ⟨fs, object_eq_ok.mp hv, ?_⟩
      simpa using hnone
  · rintro ⟨fs, rfl, hall⟩
    refine ⟨fs, rfl, ?_⟩
    have hnone : fs.find? (fun f => !allowed.contains f.1) = none := by simpa using hall
    rw [hnone]

@[simp] theorem need_eq_ok : need v k p = .ok x ↔ v.find? k = some x := by
  cases h : v.find? k <;> simp [need, h]

@[simp] theorem str_eq_ok : str v p = .ok s ↔ v = .string s := by
  cases v <;> simp [str]

@[simp] theorem getstr_eq_ok : getstr v k p = .ok s ↔ v.find? k = some (.string s) := by
  simp [getstr, bind_eq_ok]

@[simp] theorem boolean_eq_ok {b : Bool} : boolean v p = .ok b ↔ v = .bool b := by
  cases v <;> simp [boolean]

@[simp] theorem number_eq_ok {lo hi n : ℤ} :
    number v p lo hi = .ok n ↔ v = .number n ∧ lo ≤ n ∧ n ≤ hi := by
  cases v with
  | number =>
    rw [number]
    split
    · rename_i h
      simp only [Except.ok.injEq, Json.number.injEq]
      exact ⟨fun heq => ⟨heq, heq ▸ h⟩, And.left⟩
    · rename_i h
      simp only [fail_eq_ok, Json.number.injEq, false_iff]
      rintro ⟨rfl, h'⟩
      exact h h'
  | _ => simp [number]

@[simp] theorem array_eq_ok {vs : List Json} : array v p = .ok vs ↔ v = .array vs := by
  cases v <;> simp [array]

@[simp] theorem id_eq_ok {u : Unit} : id s p = .ok u ↔ identifier s = true := by
  simp [id]

end Accepts

/-! ## IPv4 networks -/

structure Cidr where
  ip : BitVec 32
  mask : BitVec 32
  prefixLength : ℕ
  deriving DecidableEq, Repr

/-- The mask of so many leading ones. -/
def maskOf (n : ℕ) : BitVec 32 := if n = 0 then 0 else BitVec.allOnes 32 <<< (32 - n)

/-- `std::from_chars` into an `int`: digits alone, or after a minus sign. -/
def fromChars (cs : List Char) : Option ℤ :=
  let digits (ds : List Char) : Option ℕ :=
    if ds ≠ [] && ds.all Char.isDigit then some (Nat.ofDigitChars 10 ds 0) else none
  match cs with
  | '-' :: ds => (digits ds).map fun n => -(n : ℤ)
  | ds => (digits ds).map fun n => (n : ℤ)

/-- `cidr`.  A prefix that does not fit an `int` is not at most 32. -/
def cidr (lib : Platform) (text p : String) : Except Error Cidr :=
  let address := text.toList.takeWhile (· ≠ '/')
  match text.toList.dropWhile (· ≠ '/') with
  | [] => fail p "IPv4 CIDR required"
  | _ :: rest =>
    match fromChars rest, lib.inetPton (String.ofList address) with
    | some n, some ip =>
      if 0 ≤ n ∧ n ≤ 32 then .ok ⟨ip, maskOf n.toNat, n.toNat⟩ else fail p "invalid IPv4 CIDR"
    | _, _ => fail p "invalid IPv4 CIDR"

/-- `inside`. -/
def inside (a b : Cidr) : Bool := a.ip &&& b.mask == b.ip &&& b.mask

/-! ## Workload contracts -/

/-- One platform of a contract, after those before. -/
def platformOf (kind : String) (seen : List String) (v : Json) : Except Error String := do
  let s ← str v "workload.platforms"
  ensure "workload.platforms" "unsupported platform"
    (s == "linux/amd64" || s == "linux/arm64" || (kind == "qemu" && s == "linux/ppc64le"))
  ensure "workload.platforms" "duplicate platform" (!seen.contains s)
  return s

/-- The range of an interface's MTU. -/
def mtuRange (v : Json) (q : String) : Except Error Unit := do
  let r ← need v "mtuRange" q
  let r ← array r (q ++ ".mtuRange")
  match r with
  | [x, y] => do
      let lo ← number x q 576 9216
      let hi ← number y q 576 9216
      ensure (q ++ ".mtuRange") "reversed range" (decide (lo ≤ hi))
  | _ => fail (q ++ ".mtuRange") "requires lower and upper bounds"

/-- One interface of a contract. -/
def interfaceOf (f : String × Json) : Except Error Unit := do
  let q := "workload.interfaces." ++ f.1
  id f.1 q
  fields f.2 q ["role", "required", "medium", "mtuRange"]
  let role ← getstr f.2 "role" q
  ensure (q ++ ".role") "unsupported interface role" (role == "data" || role == "management")
  let required ← need f.2 "required" q
  let _ ← boolean required (q ++ ".required")
  let medium ← getstr f.2 "medium" q
  ensure (q ++ ".medium") "only ethernet supported" (medium == "ethernet")
  mtuRange f.2 q

/-- `[0-9]+` -/
def digits (cs : List Char) : Bool := cs ≠ [] && cs.all Char.isDigit

/-- `[0-9]+\.[0-9]+\.[0-9]+`. -/
def semver (s : String) : Bool :=
  let parts := s.toList.splitOn '.'
  parts.length == 3 && parts.all digits

/-- The lifecycle of a contract. -/
def lifecycleOf (c : Json) : Except Error Unit := do
  let life ← need c "lifecycle" "workload"
  fields life "workload.lifecycle" ["gateUntilRelease", "quiesce"]
  let gate ← need life "gateUntilRelease" "workload"
  let gate ← boolean gate "workload.lifecycle.gateUntilRelease"
  ensure "workload.lifecycle" "M0 plans require a startup gate" gate
  let mode ← getstr life "quiesce" "workload.lifecycle"
  ensure "workload.lifecycle.quiesce" "unknown quiescence mode"
    (mode == "supported" || mode == "restart-required")

/-- The lab support of a contract. -/
def labSupportOf (c : Json) : Except Error Unit := do
  let support ← need c "labSupport" "workload"
  fields support "workload.labSupport" ["language", "version", "packageSha256"]
  let language ← getstr support "language" "workload"
  ensure "workload.labSupport.language" "custom lab support must use cpp23" (language == "cpp23")
  let version ← getstr support "version" "workload"
  ensure "workload.labSupport.version" "resolved semantic version required" (semver version)
  let package ← getstr support "packageSha256" "workload"
  hash package "workload.labSupport.packageSha256"

/-- The resources of a contract. -/
def resourcesOf (c : Json) : Except Error Unit := do
  let resources ← need c "resources" "workload"
  fields resources "workload.resources" ["cpus", "memoryMiB"]
  let cpus ← need resources "cpus" "workload"
  let _ ← number cpus "workload.resources.cpus" 1 1024
  let memory ← need resources "memoryMiB" "workload"
  let _ ← number memory "workload.resources.memoryMiB" 16 1048576

/-- `workload`. -/
def workload (c : Json) : Except Error Json := do
  fields c "workload" ["apiVersion", "id", "kind", "platforms", "interfaces", "lifecycle",
    "labSupport", "resources", "requiredFeatures"]
  let version ← getstr c "apiVersion" "workload"
  ensure "workload.apiVersion" "unsupported workload major" (version == "graphlab.workload/v2")
    "unsupported_version"
  let name ← getstr c "id" "workload"
  id name "workload.id"
  let kind ← getstr c "kind" "workload"
  ensure "workload.kind" "expected docker or qemu" (kind == "docker" || kind == "qemu")
  features c "workload"
  let platforms ← need c "platforms" "workload"
  let platforms ← array platforms "workload.platforms"
  ensure "workload.platforms" "at least one platform required" (!platforms.isEmpty)
  let platforms ← collect (platformOf kind) platforms []
  let interfaces ← need c "interfaces" "workload"
  let interfaces ← object interfaces "workload.interfaces"
  each interfaceOf interfaces
  lifecycleOf c
  labSupportOf c
  resourcesOf c
  return (c.set "requiredFeatures" (.array [])).set "platforms"
    (.array ((sortOn (fun s => s) platforms).map .string))

/-! ## Artifact locks -/

/-- `[A-Za-z0-9_-]+-[0-9]+\.[0-9]+(\.[0-9]+)?`. -/
def machine (s : String) : Bool :=
  match s.toList.splitOn '.' with
  | name :: versions =>
    -- the number after the last dash of the first part
    let back := name.reverse
    let rest := back.dropWhile Char.isDigit
    back.takeWhile Char.isDigit ≠ [] && rest.head? == some '-' && rest.drop 1 ≠ [] &&
      (rest.drop 1).all wordChar && (versions.length == 1 || versions.length == 2) &&
      versions.all digits
  | [] => false

/-- A hash that a document has if it has one of some keys. -/
def hashAt (v : Json) (k p path : String) : Except Error Unit := do
  let h ← getstr v k p
  hash h path

/-- The virtual machine of an entry. -/
def vmOf (e : Json) (p : String) : Except Error Unit := do
  let vm ← need e "vm" p
  fields vm (p ++ ".vm") ["machine", "firmwareSha256", "accelerator", "kernelSha256",
    "initrdSha256", "sshUser", "knownHostsSha256", "runnerImage"]
  if (vm.find? "runnerImage").isSome then hashAt vm "runnerImage" p (p ++ ".vm.runnerImage")
  if (vm.find? "sshUser").isSome || (vm.find? "knownHostsSha256").isSome then
    let user ← getstr vm "sshUser" p
    id user (p ++ ".vm.sshUser")
    hashAt vm "knownHostsSha256" p (p ++ ".vm.knownHostsSha256")
  if (vm.find? "kernelSha256").isSome || (vm.find? "initrdSha256").isSome then
    hashAt vm "kernelSha256" p (p ++ ".vm.kernelSha256")
    hashAt vm "initrdSha256" p (p ++ ".vm.initrdSha256")
  let name ← getstr vm "machine" p
  ensure (p ++ ".vm.machine") "versioned QEMU machine required" (machine name)
  hashAt vm "firmwareSha256" p (p ++ ".vm.firmwareSha256")
  let accelerator ← getstr vm "accelerator" p
  ensure (p ++ ".vm.accelerator") "explicit kvm or tcg accelerator required"
    (accelerator == "kvm" || accelerator == "tcg")

/-- The image of a Docker entry. -/
def imageOf (e : Json) (p : String) : Except Error Unit := do
  let image ← getstr e "image" p
  let name := image.toList.takeWhile (· ≠ '@')
  ensure (p ++ ".image") "immutable name@sha256 image required"
    (image.toList.contains '@' && name ≠ [] &&
      image.toList.all fun c => c ≠ ' ' && c ≠ '\t' && c ≠ '\n')
  hash (String.ofList ((image.toList.dropWhile (· ≠ '@')).drop 1)) (p ++ ".image")
  ensure p "Docker artifact cannot have VM fields"
    ((e.find? "diskSha256").isNone && (e.find? "vm").isNone)

/-- One entry of a lock. -/
def lockEntry (lib : Platform) (f : String × Json) : Except Error Unit := do
  let e := f.2
  let p := "lock.workloads." ++ f.1
  id f.1 p
  fields e p ["contract", "contractSha256", "image", "diskSha256", "platform", "vm"]
  let raw ← need e "contract" p
  let c ← workload raw
  ensure (p ++ ".contract.id") "contract ID differs from lock key"
    (decide (c.find? "id" = some (.string f.1)))
  let h ← getstr e "contractSha256" p
  hash h (p ++ ".contractSha256")
  ensure (p ++ ".contractSha256") "embedded contract hash mismatch" (lib.digest raw == h)
    "integrity_error"
  let platform ← getstr e "platform" p
  ensure (p ++ ".platform") "not supported by contract"
    (((c.find? "platforms").elim [] Json.elements).contains (.string platform))
  if c.find? "kind" = some (.string "docker") then imageOf e p
  else
    ensure p "QEMU artifact cannot have container image" (e.find? "image").isNone
    hashAt e "diskSha256" p (p ++ ".diskSha256")
    vmOf e p

/-- `validate_lock`. -/
def validateLock (lib : Platform) (lock : Json) : Except Error Unit := do
  fields lock "lock" ["apiVersion", "workloads"]
  let version ← getstr lock "apiVersion" "lock"
  ensure "lock.apiVersion" "unsupported artifact lock" (version == "graphlab.artifacts/v1")
    "unsupported_version"
  let entries ← need lock "workloads" "lock"
  let entries ← object entries "lock.workloads"
  each (lockEntry lib) entries

end Graphlab.Contracts
