import Memtoy.Lib.Numeral
import Memtoy.Lib.Words
import Memtoy.Segment.Model

/-!
# Command.CpuSet — the words of a `cpu_set_t`

A `cpu_set_t` is an array of `unsigned long`. `CPU_SET` works on these, one bit at a
time; `get_cpuset_from_mask` and `show_cpus` use the same memory as an array of
`unsigned int`. Both views stand for one number, `CpuSet.value`, whose bit `c` is cpu `c`.
-/

namespace Memtoy

open CString Words

/-- `CPU_SETSIZE` -/
def cpuSetsize : Nat := 1024

/-- `NCPUWORDS` -/
def ncpuwords : Nat := cpuSetsize / 32

/-- `cpu_set_t` -/
structure CpuSet where
  bits : List Word
  length_bits : bits.length = cpuSetsize / 64
deriving DecidableEq

namespace CpuSet

/-- `calloc(1, sizeof(cpu_set_t))` -/
def zero : CpuSet := ⟨List.replicate (cpuSetsize / 64) 0, rfl⟩

/-- `CPU_SET(cpu, csp)`: a number outside of the set is ignored, also one that became
large as a `size_t`. -/
def set (csp : CpuSet) (cpu : Int) : CpuSet :=
  if 0 ≤ cpu ∧ cpu < cpuSetsize then
    let i := cpu.toNat / 64
    ⟨csp.bits.set i (csp.bits.getD i 0#64 ||| BitVec.twoPow 64 (cpu.toNat % 64)),
      by rw [List.length_set, csp.length_bits]⟩
  else csp

/-- `(unsigned int *)csp->__bits`, as it is read. -/
def cpuBits (csp : CpuSet) : List (BitVec 32) := halves (w := 32) csp.bits

/-- `cpu_bits[i] = bits` -/
def store (csp : CpuSet) (i : Nat) (bits : BitVec 32) : CpuSet :=
  ⟨setHalf (w := 32) csp.bits i bits, by rw [setHalf, List.length_set, csp.length_bits]⟩

/-- Cpu `c` as bit `c`. -/
def value (csp : CpuSet) : Nat := number csp.bits

/-! ## The number -/

@[simp] theorem length_cpuBits (csp : CpuSet) : csp.cpuBits.length = ncpuwords := by
  rw [cpuBits, length_halves, csp.length_bits]
  rfl

theorem number_cpuBits (csp : CpuSet) : number csp.cpuBits = csp.value :=
  number_halves (w := 32) csp.bits

/-- `CPU_ISSET(cpu, csp)` -/
def isSet (csp : CpuSet) (cpu : Nat) : Bool := (csp.bits.getD (cpu / 64) 0#64).getLsbD (cpu % 64)

theorem testBit_value (csp : CpuSet) (cpu : Nat) : csp.value.testBit cpu = csp.isSet cpu :=
  testBit_number (by decide) csp.bits cpu

theorem value_inj {csp csp' : CpuSet} (h : csp.value = csp'.value) : csp = csp' := by
  have hbits := number_inj (by decide) (csp.length_bits.trans csp'.length_bits.symm) h
  cases csp
  cases csp'
  cases hbits
  rfl

theorem value_zero : zero.value = 0 := by
  have hzeros := number_append_zeros ([] : List Word) (cpuSetsize / 64)
  rw [List.nil_append, number_nil] at hzeros
  exact hzeros

theorem value_set {csp : CpuSet} {cpu : Nat} (h : cpu < cpuSetsize) :
    (csp.set cpu).value = csp.value ||| 2 ^ cpu := by
  have hcpu : 0 ≤ (cpu : Int) ∧ (cpu : Int) < cpuSetsize := by omega
  unfold set
  rw [if_pos hcpu]
  apply number_setBit (by decide)
  rw [csp.length_bits]
  exact h

theorem cpuBits_store {csp : CpuSet} {i : Nat} (h : i < ncpuwords) (bits : BitVec 32) :
    (csp.store i bits).cpuBits = csp.cpuBits.set i bits := by
  apply halves_setHalf
  rw [csp.length_bits]
  exact h

end CpuSet

/-! ## `show_cpus` -/

/-- `0x%8.8x` -/
def hexWord (bits : BitVec 32) : CStr := '0' :: 'x' :: hexDigits 8 bits.toNat

/-- The loop of `show_cpus` from word `i - 1` down; `any` counts the words seen. -/
def showCpusFrom (csp : CpuSet) : (i : Nat) → (any : Nat) → List CStr
  | 0, _ => []
  | i + 1, any =>
      let bits := csp.cpuBits.getD i 0#32
      if bits = 0 ∧ any = 0 then showCpusFrom csp i any
      else hexWord bits :: showCpusFrom csp i (any + 1)

/-- The words `show_cpus()` prints, without the blanks around them. -/
def showCpus (csp : CpuSet) : List CStr := showCpusFrom csp ncpuwords 0

end Memtoy
