import Mathlib.Data.Int.Notation

/-! # Records of the account database

`java.util.UUID` is a pair of 64-bit words. `Persistent` is the trait of `Persistent.scala`: a
persistent object has a `uuid` and a date `createdAt` (milliseconds), which no code of the
repository assigns after construction and which the equality of case classes does not compare. -/

namespace ServeD.Api.Records

/-- `java.util.UUID`. -/
structure UUID where
  mostSigBits : BitVec 64
  leastSigBits : BitVec 64
  deriving DecidableEq, Repr

/-- The trait `Persistent`. -/
class Persistent (T : Type) where
  uuid : T → UUID
  createdAt : T → ℤ

/-- What `randomUUID` and the clock give while a message is handled. -/
structure Fresh where
  uuid : UUID
  now : ℤ
  deriving DecidableEq, Repr

/-- `SvdUserPort`: a port of the user pool. -/
structure SvdUserPort where
  number : ℤ
  uuid : UUID
  createdAt : ℤ
  deriving DecidableEq, Repr

instance : Persistent SvdUserPort := ⟨SvdUserPort.uuid, SvdUserPort.createdAt⟩

instance : BEq SvdUserPort := ⟨fun a b => a.number == b.number && a.uuid == b.uuid⟩

instance : EquivBEq SvdUserPort where
  rfl := by simp [BEq.beq]
  symm := by simp only [BEq.beq]; grind
  trans := by simp only [BEq.beq]; grind

/-- `SvdUserUID`: a uid that is taken. -/
structure SvdUserUID where
  number : ℤ
  name : String
  uuid : UUID
  createdAt : ℤ
  deriving DecidableEq, Repr

instance : Persistent SvdUserUID := ⟨SvdUserUID.uuid, SvdUserUID.createdAt⟩

instance : BEq SvdUserUID :=
  ⟨fun a b => a.number == b.number && a.name == b.name && a.uuid == b.uuid⟩

/-- `SvdAccount`: a user. -/
structure SvdAccount where
  userName : String
  pass : String
  uid : ℤ
  accountManagerPort : ℤ
  information : String
  shell : String
  uuid : UUID
  createdAt : ℤ
  deriving DecidableEq, Repr

instance : Persistent SvdAccount := ⟨SvdAccount.uuid, SvdAccount.createdAt⟩

instance : BEq SvdAccount :=
  ⟨fun a b => a.userName == b.userName && a.pass == b.pass && a.uid == b.uid &&
    a.accountManagerPort == b.accountManagerPort && a.information == b.information &&
    a.shell == b.shell && a.uuid == b.uuid⟩

/-- `SvdFileEventBinding`: a file event on a path triggers a service. -/
structure SvdFileEventBinding where
  absoluteFilePath : String
  serviceName : String
  flags : BitVec 32
  uuid : UUID
  createdAt : ℤ
  deriving DecidableEq, Repr

instance : Persistent SvdFileEventBinding :=
  ⟨SvdFileEventBinding.uuid, SvdFileEventBinding.createdAt⟩

instance : BEq SvdFileEventBinding :=
  ⟨fun a b => a.absoluteFilePath == b.absoluteFilePath && a.serviceName == b.serviceName &&
    a.flags == b.flags && a.uuid == b.uuid⟩

instance : ReflBEq SvdFileEventBinding := ⟨by simp [BEq.beq]⟩

end ServeD.Api.Records
