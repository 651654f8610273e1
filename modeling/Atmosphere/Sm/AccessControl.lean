import Mathlib

/-!
# Access control of the service manager

A process brings two lists of service names: the restriction list of its ACID and the access
list of its ACI. Both are bytes in which one entry follows another. `RegisterProcess` compares
the lists entry by entry, and later requests are checked against the access list alone.
-/

namespace Atmosphere.Sm

/-- `sm::ServiceName`. -/
abbrev ServiceName := Fin 8 → UInt8

namespace ServiceName

/-- `ServiceName::Encode`. -/
def encode (name : List UInt8) (nameSize : ℕ) : ServiceName :=
  fun i => if i.val < nameSize then name.getD i.val 0 else 0

/-- `InvalidServiceName`. -/
def invalid : ServiceName := encode [] 0

/-- `std::memcmp(a, b, size) == 0`. -/
def equalUpTo (a b : ServiceName) (size : ℕ) : Bool :=
  decide (∀ i : Fin 8, i.val < size → a i = b i)

end ServiceName

/-- The `Result` values of sm. -/
inductive SmResult
  | notAllowed
  | invalidServiceName
  | alreadyRegistered
  | notRegistered
  | outOfServices
  | outOfProcesses
  | outOfSessions
  | invalidClient
  | tooLargeAccessControl
  /-- `tipc::ResultRequestDeferred`. -/
  | requestDeferred
  /-- A result of the kernel. -/
  | svc (code : ℕ)
  deriving DecidableEq, Repr

/-- `ValidateServiceName`: the name is not empty, and all zero after it ends. -/
def validateServiceName (service : ServiceName) : Except SmResult Unit :=
  if service 0 = 0 then .error .invalidServiceName
  else
    match (List.finRange 8).find? fun i => decide (1 ≤ i.val) && service i == 0 with
    | none => .ok ()
    | some nameLen =>
      if ∀ i : Fin 8, nameLen ≤ i → service i = 0 then .ok ()
      else .error .invalidServiceName

/-- An `AccessControlEntry`: the bytes from the entry to the end of the list. -/
abbrev AccessControlEntry := List UInt8

namespace AccessControlEntry

variable (entry : AccessControlEntry)

/-- The byte of the flags and the size. -/
def header : UInt8 := entry.headD 0

def getServiceNameSize : ℕ := (header entry &&& 7).toNat + 1

def getSize : ℕ := getServiceNameSize entry + 1

def getNextEntry : AccessControlEntry := entry.drop (getSize entry)

def getServiceName : ServiceName := .encode (entry.drop 1) (getServiceNameSize entry)

def isHost : Bool := header entry &&& 0x80 != 0

/-- The last byte of the name is a star. -/
def isWildcard : Bool := entry.getD (getServiceNameSize entry) 0 == 42

def isValid : Bool := !entry.isEmpty && getSize entry ≤ entry.length

/-- The entry allows the name; `isWildcard` says that the name stands for a wildcard entry. -/
def allows (service : ServiceName) (isWildcard : Bool) : Bool :=
  if AccessControlEntry.isWildcard entry == isWildcard then getServiceName entry == service
  else if AccessControlEntry.isWildcard entry then
    (getServiceName entry).equalUpTo service (getServiceNameSize entry - 1)
  else true

/-- The entries that the loops over a list visit, at most `fuel` of them. -/
def entriesFrom : ℕ → AccessControlEntry → List AccessControlEntry
  | 0, _ => []
  | fuel + 1, entry =>
    if isValid entry then entry :: entriesFrom fuel (getNextEntry entry) else []

/-- The entries of a list. Every entry has at least two bytes. -/
def entries : List AccessControlEntry := entriesFrom entry.length entry

end AccessControlEntry

open AccessControlEntry

/-- `ValidateAccessControl` of one name. -/
def validateAccessControl (accessControl : AccessControlEntry) (service : ServiceName)
    (isHost isWildcard : Bool) : Except SmResult Unit :=
  if (entries accessControl).any fun e =>
      AccessControlEntry.isHost e == isHost && allows e service isWildcard then .ok ()
  else .error .notAllowed

/-- `ValidateAccessControl` of a whole list. -/
def validateRestriction (restriction access : AccessControlEntry) : Except SmResult Unit :=
  (entries access).forM fun e =>
    validateAccessControl restriction (getServiceName e) (AccessControlEntry.isHost e)
      (AccessControlEntry.isWildcard e)

end Atmosphere.Sm
