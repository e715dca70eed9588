-- The identifiers, counters and digests of the safety core. An identifier is
-- built only from a text that `validate_identifier` accepts, so every value of
-- `NodeId` and `WorkloadId` is well formed.
import Mathlib.Data.UInt
import Mathlib.Order.Basic

namespace quorumarc_core

/-! ## Identifiers -/

/-- Identifier construction failure. -/
inductive IdError where
  | Empty
  | TooLong
  | InvalidCharacter
deriving DecidableEq, Repr

/-- The bytes of the canonical subset: ASCII letters and digits, and `-`, `_`, `.`. -/
def isIdentifierByte (byte : UInt8) : Bool :=
  (48 ≤ byte && byte ≤ 57) || (65 ≤ byte && byte ≤ 90) || (97 ≤ byte && byte ≤ 122) ||
    byte == 45 || byte == 95 || byte == 46

def validate_identifier (value : String) : Except IdError String :=
  if value.isEmpty then .error .Empty
  else if value.utf8ByteSize > 128 then .error .TooLong
  else if !value.toUTF8.data.toList.all isIdentifierByte then .error .InvalidCharacter
  else .ok value

/-- A validated node identifier. -/
structure NodeId where
  text : String
  valid : validate_identifier text = .ok text
deriving DecidableEq

/-- A validated protected-workload identifier. -/
structure WorkloadId where
  text : String
  valid : validate_identifier text = .ok text
deriving DecidableEq

/-- `validate_identifier` gives back the text it accepts. -/
theorem validate_identifier_eq {value text : String} (h : validate_identifier value = .ok text) :
    value = text := by
  unfold validate_identifier at h
  split at h
  · cases h
  split at h
  · cases h
  split at h
  · cases h
  cases h
  rfl

theorem validate_identifier_idem {value text : String}
    (h : validate_identifier value = .ok text) : validate_identifier text = .ok text := by
  obtain rfl := validate_identifier_eq h
  exact h

def NodeId.new (value : String) : Except IdError NodeId :=
  match h : validate_identifier value with
  | .error e => .error e
  | .ok text => .ok ⟨text, validate_identifier_idem h⟩

def WorkloadId.new (value : String) : Except IdError WorkloadId :=
  match h : validate_identifier value with
  | .error e => .error e
  | .ok text => .ok ⟨text, validate_identifier_idem h⟩

/-! ## Counters

The counters compare by their word, as the derived `Ord` of the source does. -/

/-- Monotonically increasing authority generation. -/
structure Epoch where
  val : UInt64
deriving DecidableEq, Repr

/-- Durable boot generation used to reject proofs from an earlier process life. -/
structure Incarnation where
  val : UInt64
deriving DecidableEq, Repr

/-- Durable workload log position. -/
structure CommitIndex where
  val : UInt64
deriving DecidableEq, Repr

theorem Epoch.toNat_injective : Function.Injective (fun e : Epoch => e.val.toNat) := by
  rintro ⟨a⟩ ⟨b⟩ h
  exact congrArg Epoch.mk (UInt64.toNat_inj.mp h)

theorem CommitIndex.toNat_injective : Function.Injective (fun c : CommitIndex => c.val.toNat) := by
  rintro ⟨a⟩ ⟨b⟩ h
  exact congrArg CommitIndex.mk (UInt64.toNat_inj.mp h)

instance : LinearOrder Epoch := LinearOrder.lift' (fun e => e.val.toNat) Epoch.toNat_injective

instance : LinearOrder CommitIndex :=
  LinearOrder.lift' (fun c => c.val.toNat) CommitIndex.toNat_injective

theorem Epoch.lt_iff {a b : Epoch} : a < b ↔ a.val.toNat < b.val.toNat := Iff.rfl

theorem Epoch.le_iff {a b : Epoch} : a ≤ b ↔ a.val.toNat ≤ b.val.toNat := Iff.rfl

/-! ## Digests -/

/-- A cryptographic state digest supplied by a future trusted adapter. -/
structure StateRoot where
  bytes : Vector UInt8 32
deriving DecidableEq

/-- Whether the sentinel all-zero root was supplied. -/
def StateRoot.is_zero (root : StateRoot) : Bool := root.bytes.toList.all (· == 0)

/-- Digest of the complete safety policy and capsule version. -/
structure PolicyHash where
  bytes : Vector UInt8 32
deriving DecidableEq

end quorumarc_core
