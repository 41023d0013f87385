import Mathlib.Algebra.Group.Nat.Defs
import Mathlib.Data.List.Basic

/-!
# Instructions

An instruction is a word of 32 bits: the operation, a register, and either two more
registers or one number of 16 bits. A jump keeps its distance in that number, moved up
by `LHAT_BX_BIAS` so that it may be negative.
-/

namespace Lhat.Compile

abbrev LhatInstruction := UInt32

abbrev LhatOpcode := UInt8

namespace LhatOpcode

def move : LhatOpcode := 3

def jump : LhatOpcode := 40

def jumpFalse : LhatOpcode := 41

def pushCleanup : LhatOpcode := 74

def forPrep : LhatOpcode := 88

def forLoop : LhatOpcode := 89

def forPrepD : LhatOpcode := 90

def forLoopD : LhatOpcode := 91

/-- The operations whose number is a distance. -/
def isJump (op : LhatOpcode) : Bool :=
  op = jump || op = jumpFalse || op = forPrep || op = forLoop || op = forPrepD || op = forLoopD

end LhatOpcode

/-- `LHAT_BX_BIAS`. -/
def lhatBxBias : Int := 32768

/-- `lhat_encode_abx`. -/
def lhatEncodeAbx (op : LhatOpcode) (a : UInt8) (bx : UInt16) : LhatInstruction :=
  op.toUInt32 ||| (a.toUInt32 <<< 8) ||| (bx.toUInt32 <<< 16)

/-- A conversion to `int32_t`. -/
def int32 (n : Int) : Int := n.bmod (2 ^ 32)

/-- A conversion to `uint16_t`. -/
def uint16 (n : Int) : UInt16 := UInt16.ofNat (n % 65536).toNat

/-- `lhat_encode_jump`. -/
def lhatEncodeJump (op : LhatOpcode) (a : UInt8) (offset : Int) : LhatInstruction :=
  lhatEncodeAbx op a (uint16 (offset + lhatBxBias))

/-- `lhat_op`. -/
def lhatOp (i : LhatInstruction) : LhatOpcode := (i &&& 255).toUInt8

/-- `lhat_a`. -/
def lhatA (i : LhatInstruction) : UInt8 := (i >>> 8).toUInt8

/-- `lhat_bx`. -/
def lhatBx (i : LhatInstruction) : UInt16 := (i >>> 16).toUInt16

/-- `lhat_jump_offset`. -/
def lhatJumpOffset (i : LhatInstruction) : Int := (lhatBx i).toNat - lhatBxBias

theorem getElem_mask : ∀ i : Fin 8, (255#8)[i] = true := by decide

@[simp] theorem lhatOp_encodeAbx (op : LhatOpcode) (a : UInt8) (bx : UInt16) :
    lhatOp (lhatEncodeAbx op a bx) = op := by
  apply UInt8.eq_of_toBitVec_eq
  ext i hi
  have hset : (255#8)[i] = true := getElem_mask ⟨i, hi⟩
  simp [lhatOp, lhatEncodeAbx, hset]

@[simp] theorem lhatA_encodeAbx (op : LhatOpcode) (a : UInt8) (bx : UInt16) :
    lhatA (lhatEncodeAbx op a bx) = a := by
  apply UInt8.eq_of_toBitVec_eq
  ext i hi
  have hword : 8 + i < 32 := by omega
  have hlow : 8 + i < 16 := by omega
  have hshort : i < 32 := by omega
  simp [lhatA, lhatEncodeAbx, hword, hlow, hshort, BitVec.getLsbD_eq_getElem hi]

@[simp] theorem lhatBx_encodeAbx (op : LhatOpcode) (a : UInt8) (bx : UInt16) :
    lhatBx (lhatEncodeAbx op a bx) = bx := by
  apply UInt16.eq_of_toBitVec_eq
  ext i hi
  have hop : op.toBitVec.getLsbD (16 + i) = false := BitVec.getLsbD_of_ge _ _ (by omega)
  have ha : a.toBitVec.getLsbD (16 + i - 8) = false := BitVec.getLsbD_of_ge _ _ (by omega)
  have hword : 16 + i < 32 := by omega
  simp [lhatBx, lhatEncodeAbx, hop, ha, hword, BitVec.getLsbD_eq_getElem hi]

@[simp] theorem lhatOp_encodeJump (op : LhatOpcode) (a : UInt8) (offset : Int) :
    lhatOp (lhatEncodeJump op a offset) = op := lhatOp_encodeAbx op a _

@[simp] theorem lhatA_encodeJump (op : LhatOpcode) (a : UInt8) (offset : Int) :
    lhatA (lhatEncodeJump op a offset) = a := lhatA_encodeAbx op a _

theorem toNat_uint16 (n : Int) : ((uint16 n).toNat : Int) = n % 65536 := by
  unfold uint16
  rw [UInt16.toNat_ofNat']
  omega

theorem lhatJumpOffset_encodeJump (op : LhatOpcode) (a : UInt8) (offset : Int) :
    lhatJumpOffset (lhatEncodeJump op a offset) = (offset + lhatBxBias) % 65536 - lhatBxBias := by
  unfold lhatJumpOffset lhatEncodeJump
  rw [lhatBx_encodeAbx, toNat_uint16]

/-- Whether a distance fits the field. -/
def InReach (distance : Int) : Prop := -lhatBxBias ≤ distance ∧ distance < lhatBxBias

instance (distance : Int) : Decidable (InReach distance) :=
  inferInstanceAs (Decidable (_ ∧ _))

/-- A distance comes back from the field exactly if it fits. It is computed as an
`int32_t` first, which takes nothing from it that the field would have kept. -/
theorem lhatJumpOffset_eq_iff (op : LhatOpcode) (a : UInt8) (distance : Int) :
    lhatJumpOffset (lhatEncodeJump op a (int32 distance)) = distance ↔ InReach distance := by
  rw [lhatJumpOffset_encodeJump]
  have hwrap : (int32 distance + lhatBxBias) % 65536 = (distance + lhatBxBias) % 65536 := by
    have hmod : (65536 : Int) ∣ 2 ^ 32 := ⟨65536, by decide⟩
    have hcongr : int32 distance % 65536 = distance % 65536 := by
      unfold int32
      rw [← Int.emod_emod_of_dvd (Int.bmod distance (2 ^ 32)) hmod]
      have : Int.bmod distance (2 ^ 32) % (2 ^ 32 : Int) = distance % (2 ^ 32 : Int) :=
        Int.bmod_emod
      rw [this, Int.emod_emod_of_dvd _ hmod]
    rw [Int.add_emod, hcongr, ← Int.add_emod]
  rw [hwrap]
  unfold InReach lhatBxBias
  omega

theorem lhatJumpOffset_encodeJump_offset (op : LhatOpcode) (a : UInt8) (i : LhatInstruction) :
    lhatJumpOffset (lhatEncodeJump op a (lhatJumpOffset i)) = lhatJumpOffset i := by
  rw [lhatJumpOffset_encodeJump]
  have hlt := (lhatBx i).toNat_lt
  unfold lhatJumpOffset lhatBxBias
  omega

end Lhat.Compile
