import ServeD.Lib.ImmutableSets
import ServeD.Api.Records

/-! # Access keys and the records that hold them

`AccessKey` of `Ssh.scala`, `AccountKeys` of `SvdAccountManager.scala` and `Repository` of
`Git.scala`, over an arbitrary type `K` of public keys (`==` on it compares the key material). The
records are case classes: `createdAt` belongs to the trait `Persistent` and is not compared. -/

namespace ServeD.Api.Keys

open ServeD.Lib.ImmutableSets ServeD.Api.Records

variable {K : Type}

/-- `AccessKey`. -/
structure AccessKey (K : Type) where
  name : String
  key : K
  deriving DecidableEq, Repr

namespace AccessKey

/-- `AccessKey.equals`, for another `AccessKey`. The pattern `AccessKey(n, k)` binds `k` to the key
of the argument, which is then compared with itself. -/
def equals [BEq K] (_this that : AccessKey K) : Bool :=
  match that with
  | ⟨_, k⟩ => k == k

instance [BEq K] : BEq (AccessKey K) := ⟨equals⟩

instance [HashCode K] : HashCode (AccessKey K) := ⟨fun a => HashCode.hashCode a.key⟩

@[simp] theorem beq_eq_true [BEq K] [ReflBEq K] (a b : AccessKey K) : (a == b) = true := by
  simp only [BEq.beq, equals]
  exact BEq.rfl

instance [BEq K] [ReflBEq K] : ReflBEq (AccessKey K) := ⟨beq_eq_true _ _⟩

end AccessKey

/-- The keys that `KeyUtils.load` gives are `X509Key`s of the JDK, compared by their encoding. -/
structure X509Key where
  encoded : List (BitVec 8)
  deriving DecidableEq, Repr

/-- `X509Key.hashCode`. -/
instance : HashCode X509Key :=
  ⟨fun k => k.encoded.foldl (fun r b => r + b.setWidth 32 * 37) (BitVec.ofNat 32 k.encoded.length)⟩

/-- `AccountKeys`. -/
structure AccountKeys (K : Type) where
  keys : ImmutableSet (AccessKey K)
  uuid : UUID
  createdAt : ℤ
  deriving DecidableEq

/-- `Repository`. -/
structure Repository (K : Type) where
  name : String
  authorizedKeys : ImmutableSet (AccessKey K)
  uuid : UUID
  createdAt : ℤ
  deriving DecidableEq

instance : Persistent (AccountKeys K) := ⟨AccountKeys.uuid, AccountKeys.createdAt⟩

instance : Persistent (Repository K) := ⟨Repository.uuid, Repository.createdAt⟩

variable [BEq K] [HashCode K]

instance : BEq (AccountKeys K) := ⟨fun a b => a.keys == b.keys && a.uuid == b.uuid⟩

instance : BEq (Repository K) :=
  ⟨fun a b => a.name == b.name && a.authorizedKeys == b.authorizedKeys && a.uuid == b.uuid⟩

theorem AccountKeys.beq_def (a b : AccountKeys K) :
    (a == b) = (a.keys == b.keys && a.uuid == b.uuid) := rfl

theorem Repository.beq_def (a b : Repository K) :
    (a == b) = (a.name == b.name && a.authorizedKeys == b.authorizedKeys && a.uuid == b.uuid) :=
  rfl

instance [ReflBEq K] : ReflBEq (AccountKeys K) := ⟨by simp [AccountKeys.beq_def]⟩

instance [ReflBEq K] : ReflBEq (Repository K) := ⟨by simp [Repository.beq_def]⟩

end ServeD.Api.Keys
