import NougatArt.Core.MagicDivision

/-!
# Instructions of the x86

The instructions that the code generator emits for divisions by constants. Instructions
that leave the flags in a state that is not used make them unavailable.
-/

namespace NougatArt.Codegen

open BitVec

inductive Register
  | eax | ecx | edx | ebx | esp | ebp | esi | edi
  deriving DecidableEq

structure Flags where
  sign : Bool
  overflow : Bool

structure Machine where
  registers : Register → BitVec 32
  flags : Option Flags

inductive Instruction
  | movl (destination source : Register)
  | movlImmediate (destination : Register) (immediate : BitVec 32)
  /-- `EDX:EAX = EAX * source`, signed. -/
  | imull (source : Register)
  | imullImmediate (destination : Register) (immediate : BitVec 32)
  | addl (destination source : Register)
  | subl (destination source : Register)
  | sarl (destination : Register) (immediate : ℕ)
  | shrl (destination : Register) (immediate : ℕ)
  | negl (destination : Register)
  | xorl (destination source : Register)
  | leal (destination base : Register) (displacement : BitVec 32)
  | testl (first second : Register)
  /-- `cmovl` with the condition `kGreaterEqual`. -/
  | cmovlGreaterEqual (destination source : Register)

namespace Machine

/-- An instruction that does not change the flags. -/
def set (machine : Machine) (destination : Register) (value : BitVec 32) : Machine :=
  { machine with registers := Function.update machine.registers destination value }

/-- An instruction that changes the flags. -/
def compute (machine : Machine) (destination : Register) (value : BitVec 32) : Machine :=
  ⟨Function.update machine.registers destination value, none⟩

def execute (machine : Machine) : Instruction → Option Machine
  | .movl destination source => some (machine.set destination (machine.registers source))
  | .movlImmediate destination immediate => some (machine.set destination immediate)
  | .imull source =>
    let product := (machine.registers .eax).signExtend 64 * (machine.registers source).signExtend 64
    some ((machine.compute .eax (product.extractLsb' 0 32)).compute .edx
      (product.extractLsb' 32 32))
  | .imullImmediate destination immediate =>
    some (machine.compute destination (machine.registers destination * immediate))
  | .addl destination source =>
    some (machine.compute destination (machine.registers destination + machine.registers source))
  | .subl destination source =>
    some (machine.compute destination (machine.registers destination - machine.registers source))
  | .sarl destination immediate => some (machine.compute destination
      ((machine.registers destination).sshiftRight (immediate % 32)))
  | .shrl destination immediate =>
    some (machine.compute destination (machine.registers destination >>> (immediate % 32)))
  | .negl destination => some (machine.compute destination (-machine.registers destination))
  | .xorl destination source =>
    some (machine.compute destination (machine.registers destination ^^^ machine.registers source))
  | .leal destination base displacement =>
    some (machine.set destination (machine.registers base + displacement))
  | .testl first second => some { machine with
      flags := some ⟨(machine.registers first &&& machine.registers second).msb, false⟩ }
  | .cmovlGreaterEqual destination source =>
    match machine.flags with
    | none => none
    | some flags =>
      if flags.sign = flags.overflow then
        some (machine.set destination (machine.registers source))
      else
        some machine

def run (machine : Machine) (code : List Instruction) : Option Machine :=
  code.foldlM execute machine

@[simp]
theorem run_nil (m : Machine) : m.run [] = some m :=
  rfl

@[simp]
theorem run_cons (m : Machine) (insn : Instruction) (code : List Instruction) :
    m.run (insn :: code) = (m.execute insn).bind (·.run code) :=
  rfl

theorem run_append (m : Machine) (first second : List Instruction) :
    m.run (first ++ second) = (m.run first).bind (·.run second) := by
  rw [run, List.foldlM_append]
  rfl

end Machine

theorem extractLsb_mul (first second : BitVec 32) :
    (first.signExtend 64 * second.signExtend 64).extractLsb' 32 32 =
      BitVec.ofInt 32 (first.toInt * second.toInt / 2 ^ 32) := by
  have hproduct : first.signExtend 64 * second.signExtend 64 =
      BitVec.ofInt 64 (first.toInt * second.toInt) :=
    (ofInt_mul first.toInt second.toInt).symm
  rw [hproduct]
  generalize first.toInt * second.toInt = product
  apply eq_of_toNat_eq
  rw [extractLsb'_toNat, toNat_ofInt, toNat_ofInt, Nat.shiftRight_eq_div_pow]
  omega

/-- The sign bit of a register, added to the register, rounds towards zero. -/
theorem add_sign_bit (v : BitVec 32) :
    v >>> 31 + v = BitVec.ofInt 32 (MagicDivision.towardsZero v.toInt) := by
  have hsign : v >>> 31 = BitVec.ofInt 32 (if v.toInt < 0 then 1 else 0) := by
    apply eq_of_toNat_eq
    rw [BitVec.toNat_ushiftRight, Nat.shiftRight_eq_div_pow, BitVec.toNat_ofInt, BitVec.toInt]
    have hlt := v.isLt
    split <;> split <;> omega
  rw [hsign, MagicDivision.towardsZero, BitVec.ofInt_add, BitVec.ofInt_toInt, BitVec.add_comm]

end NougatArt.Codegen
