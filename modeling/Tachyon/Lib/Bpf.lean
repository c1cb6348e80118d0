import Mathlib.Algebra.Ring.Nat
import Mathlib.Data.List.Basic

/-!
# `Tachyon.Lib.Bpf`: classic BPF, the language of socket filters

A socket filter is a list of instructions over an accumulator, an index register and 16 scratch
words. It reads the packet and returns a number: how many bytes to keep for a capture, or which
socket to take in a reuseport group. A read outside the packet and a division by zero end the
program with 0.

`decode` reads one `sock_filter`, and `attach` checks a whole program: every instruction is known,
and no jump leads out of it. The kernel also wants that a scratch word is written before it is
read, and here they start with 0. A `Program` is what passed the check. All jumps go forward, so
it returns for every packet, within as many steps as it has instructions (`isSome_run`), and
`Program.filter` is its result. The lemmas `run_*` execute one instruction.
-/

set_option autoImplicit false

namespace Tachyon

namespace Bpf

/-- `struct sock_filter`. -/
structure SockFilter where
  code : UInt16
  jt : UInt8
  jf : UInt8
  k : UInt32

/-- What a program can read: the bytes from the link-layer header on, and the data that the kernel
has about the packet (`SKF_AD_OFF`), by their numbers. -/
structure Packet where
  bytes : List UInt8
  aux : Nat → UInt32

inductive Size
  | word
  | half
  | byte

/-- Where a load takes its value from. `msh` is `BPF_MSH`, the header length in an IPv4 packet. -/
inductive Source
  | imm (k : UInt32)
  | len
  | mem (k : Fin 16)
  | abs (size : Size) (k : Nat)
  | ind (size : Size) (k : Nat)
  | msh (k : Nat)
  | aux (k : Nat)

/-- The second operand: the constant, or the index register. -/
inductive Operand
  | const (k : UInt32)
  | x

inductive Alu
  | add
  | sub
  | mul
  | div
  | or
  | and
  | lsh
  | rsh
  | mod
  | xor

inductive Test
  | jeq
  | jgt
  | jge
  | jset

inductive Instr
  | ld (src : Source)
  | ldx (src : Source)
  | st (k : Fin 16)
  | stx (k : Fin 16)
  | alu (op : Alu) (operand : Operand)
  | neg
  | ja (k : Nat)
  | jmp (test : Test) (operand : Operand) (jt jf : Nat)
  | retK (k : UInt32)
  | retA
  | tax
  | txa

/-! ### Encoding -/

def scratch (k : UInt32) : Option (Fin 16) :=
  if h : k.toNat < 16 then some ⟨k.toNat, h⟩ else none

/-- An offset in the packet. Those from `2^31` on are negative numbers for the kernel. -/
def offsetOf (k : UInt32) : Option Nat := if k.toNat < 2 ^ 31 then some k.toNat else none

/-- `BPF_ABS`. The last 4096 offsets are the data of the kernel. The offsets from `2^31` up to
there are relative to one of the headers, and are left out. -/
def Source.ofAbs (size : Size) (k : UInt32) : Option Source :=
  if 0xFFFFF000 ≤ k.toNat then some (.aux (k.toNat - 0xFFFFF000))
  else (offsetOf k).map (.abs size)

/-- `BPF_SRC`. -/
def Operand.ofCode (code : Nat) (k : UInt32) : Operand :=
  if code &&& 0x08 = 0 then .const k else .x

/-- A constant that divides is not 0, and one that shifts is less than 32. -/
def Alu.admits : Alu → Operand → Bool
  | .div, .const k => k ≠ 0
  | .mod, .const k => k ≠ 0
  | .lsh, .const k => k < 32
  | .rsh, .const k => k < 32
  | _, _ => true

def Alu.ofCode (code : Nat) : Option Alu :=
  match code with
  | 0x00 => some .add
  | 0x10 => some .sub
  | 0x20 => some .mul
  | 0x30 => some .div
  | 0x40 => some .or
  | 0x50 => some .and
  | 0x60 => some .lsh
  | 0x70 => some .rsh
  | 0x90 => some .mod
  | 0xA0 => some .xor
  | _ => none

def Test.ofCode (code : Nat) : Option Test :=
  match code with
  | 0x10 => some .jeq
  | 0x20 => some .jgt
  | 0x30 => some .jge
  | 0x40 => some .jset
  | _ => none

/-- The instructions of the class `BPF_ALU`. -/
def decodeAlu (code : Nat) (k : UInt32) : Option Instr :=
  if code = 0x84 then some .neg
  else (Alu.ofCode (code &&& 0xF0)).bind fun op =>
    if op.admits (Operand.ofCode code k) then some (.alu op (Operand.ofCode code k)) else none

/-- One instruction. -/
def decode (f : SockFilter) : Option Instr :=
  match f.code.toNat with
  | 0x00 => some (.ld (.imm f.k))
  | 0x20 => (Source.ofAbs .word f.k).map .ld
  | 0x28 => (Source.ofAbs .half f.k).map .ld
  | 0x30 => (Source.ofAbs .byte f.k).map .ld
  | 0x40 => (offsetOf f.k).map fun k => .ld (.ind .word k)
  | 0x48 => (offsetOf f.k).map fun k => .ld (.ind .half k)
  | 0x50 => (offsetOf f.k).map fun k => .ld (.ind .byte k)
  | 0x60 => (scratch f.k).map fun k => .ld (.mem k)
  | 0x80 => some (.ld .len)
  | 0x01 => some (.ldx (.imm f.k))
  | 0x61 => (scratch f.k).map fun k => .ldx (.mem k)
  | 0x81 => some (.ldx .len)
  | 0xB1 => (offsetOf f.k).map fun k => .ldx (.msh k)
  | 0x02 => (scratch f.k).map .st
  | 0x03 => (scratch f.k).map .stx
  | 0x05 => some (.ja f.k.toNat)
  | 0x06 => some (.retK f.k)
  | 0x16 => some .retA
  | 0x07 => some .tax
  | 0x87 => some .txa
  | code =>
    if code &&& 0x07 = 0x04 then decodeAlu code f.k
    else if code &&& 0x07 = 0x05 then (Test.ofCode (code &&& 0xF0)).map
      (.jmp · (Operand.ofCode code f.k) f.jt.toNat f.jf.toNat)
    else none

/-! ### Execution -/

structure Regs where
  a : UInt32
  x : UInt32
  mem : Fin 16 → UInt32

def Regs.zero : Regs := ⟨0, 0, fun _ => 0⟩

/-- The bytes of a value, in network byte order. -/
def Packet.word (p : Packet) (offset n : Nat) : Option UInt32 :=
  if offset + n ≤ p.bytes.length then
    some (UInt32.ofNat
      (((p.bytes.drop offset).take n).foldl (fun acc b => acc * 256 + b.toNat) 0))
  else none

def Size.bytes : Size → Nat
  | .word => 4
  | .half => 2
  | .byte => 1

/-- The value of a load. `none` is a read outside of the packet. -/
def Source.value (p : Packet) (r : Regs) : Source → Option UInt32
  | .imm k => some k
  | .len => some (UInt32.ofNat p.bytes.length)
  | .mem k => some (r.mem k)
  | .abs size k => p.word k size.bytes
  | .ind size k => p.word (r.x.toNat + k) size.bytes
  | .msh k => (p.word k 1).map fun b => (b &&& 0x0F) * 4
  | .aux k => some (p.aux k)

def Operand.value (r : Regs) : Operand → UInt32
  | .const k => k
  | .x => r.x

/-- The value of an operation. `none` is a division by zero. -/
def Alu.value (a b : UInt32) : Alu → Option UInt32
  | .add => some (a + b)
  | .sub => some (a - b)
  | .mul => some (a * b)
  | .div => if b = 0 then none else some (a / b)
  | .or => some (a ||| b)
  | .and => some (a &&& b)
  | .lsh => some (a <<< b)
  | .rsh => some (a >>> b)
  | .mod => if b = 0 then none else some (a % b)
  | .xor => some (a ^^^ b)

def Test.holds (a b : UInt32) : Test → Bool
  | .jeq => a = b
  | .jgt => b < a
  | .jge => b ≤ a
  | .jset => a &&& b ≠ 0

/-- An instruction goes on and skips some of those behind it, or the program returns. -/
inductive Outcome
  | next (r : Regs) (skip : Nat)
  | done (v : UInt32)

def Instr.exec (p : Packet) (r : Regs) : Instr → Outcome
  | .ld src =>
    match src.value p r with
    | some v => .next { r with a := v } 0
    | none => .done 0
  | .ldx src =>
    match src.value p r with
    | some v => .next { r with x := v } 0
    | none => .done 0
  | .st k => .next { r with mem := fun i => if i = k then r.a else r.mem i } 0
  | .stx k => .next { r with mem := fun i => if i = k then r.x else r.mem i } 0
  | .alu op operand =>
    match op.value r.a (operand.value r) with
    | some v => .next { r with a := v } 0
    | none => .done 0
  | .neg => .next { r with a := 0 - r.a } 0
  | .ja k => .next r k
  | .jmp test operand jt jf => .next r (if test.holds r.a (operand.value r) then jt else jf)
  | .retK k => .done k
  | .retA => .done r.a
  | .tax => .next { r with x := r.a } 0
  | .txa => .next { r with a := r.x } 0

/-- The instructions from one on. `none` is the end of the program, or of the fuel. -/
def run (p : Packet) : Nat → List Instr → Regs → Option UInt32
  | 0, _, _ => none
  | _ + 1, [], _ => none
  | fuel + 1, i :: rest, r =>
    match i.exec p r with
    | .next r' skip => run p fuel (rest.drop skip) r'
    | .done v => some v

/-! ### The check -/

/-- How many instructions a step may skip. -/
def Instr.skips : Instr → List Nat
  | .ja k => [k]
  | .jmp _ _ jt jf => [jt, jf]
  | .retK _ => []
  | .retA => []
  | .ld _ => [0]
  | .ldx _ => [0]
  | .st _ => [0]
  | .stx _ => [0]
  | .alu _ _ => [0]
  | .neg => [0]
  | .tax => [0]
  | .txa => [0]

/-- No instruction leads out of the program. The last one has to be a return for that. -/
def Closed : List Instr → Prop
  | [] => True
  | i :: rest => (∀ n ∈ i.skips, n < rest.length) ∧ Closed rest

instance decidableClosed : (prog : List Instr) → Decidable (Closed prog)
  | [] => .isTrue trivial
  | _ :: rest => @instDecidableAnd _ _ _ (decidableClosed rest)

theorem mem_skips_of_next {p : Packet} {r r' : Regs} {i : Instr} {skip : Nat}
    (h : i.exec p r = .next r' skip) : skip ∈ i.skips := by
  cases i with
  | ja k =>
    cases h
    exact List.mem_singleton.mpr rfl
  | jmp test operand jt jf =>
    cases h
    split
    · exact List.mem_cons_self
    · exact List.mem_cons_of_mem _ (List.mem_singleton.mpr rfl)
  | retK k | retA => cases h
  | st k | stx k | neg | tax | txa =>
    cases h
    exact List.mem_singleton.mpr rfl
  | ld src | ldx src | alu op operand =>
    simp only [Instr.exec] at h
    split at h
    · cases h
      exact List.mem_singleton.mpr rfl
    · cases h

theorem Closed.drop {prog : List Instr} (h : Closed prog) (n : Nat) : Closed (prog.drop n) := by
  induction n generalizing prog with
  | zero => exact h
  | succ n ih =>
    cases prog with
    | nil => exact h
    | cons i rest => exact ih h.2

/-- A checked program returns, from any of its instructions on. -/
theorem exists_run_eq (p : Packet) {prog : List Instr} (h : Closed prog) (hne : prog ≠ [])
    {fuel : Nat} (hfuel : prog.length ≤ fuel) (r : Regs) : ∃ v, run p fuel prog r = some v := by
  induction fuel generalizing prog r with
  | zero => exact absurd (List.eq_nil_of_length_eq_zero (Nat.le_zero.mp hfuel)) hne
  | succ fuel ih =>
    cases prog with
    | nil => exact absurd rfl hne
    | cons i rest =>
      rw [run]
      cases hexec : i.exec p r with
      | done v => exact ⟨v, rfl⟩
      | next r' skip =>
        have hskip := h.1 skip (mem_skips_of_next hexec)
        rw [List.length_cons] at hfuel
        refine ih (h.2.drop skip) ?_ ?_ r'
        · exact List.ne_nil_of_length_pos (by rw [List.length_drop]; omega)
        · rw [List.length_drop]
          omega

/-- A program that passed the check. -/
structure Program where
  instrs : List Instr
  ne_nil : instrs ≠ []
  closed : Closed instrs

/-- `SO_ATTACH_FILTER`, `SO_ATTACH_REUSEPORT_CBPF`: the program is decoded and checked. -/
def attach (code : List SockFilter) : Option Program := do
  let instrs ← code.mapM decode
  if h : instrs ≠ [] ∧ Closed instrs then some ⟨instrs, h.1, h.2⟩ else none

namespace Program

theorem isSome_run (prog : Program) (p : Packet) :
    (run p prog.instrs.length prog.instrs .zero).isSome := by
  obtain ⟨v, hv⟩ := exists_run_eq p prog.closed prog.ne_nil (Nat.le_refl _) .zero
  rw [hv]
  rfl

/-- What the program returns for a packet. -/
def filter (prog : Program) (p : Packet) : UInt32 :=
  (run p prog.instrs.length prog.instrs .zero).get (prog.isSome_run p)

theorem filter_of_run {prog : Program} {p : Packet} {v : UInt32}
    (h : run p prog.instrs.length prog.instrs .zero = some v) : prog.filter p = v :=
  Option.get_of_eq_some _ h

end Program

/-! ### One instruction -/

section
variable (p : Packet) (fuel : Nat) (rest : List Instr) (r : Regs)

theorem run_retK (k : UInt32) : run p (fuel + 1) (.retK k :: rest) r = some k := rfl

theorem run_retA : run p (fuel + 1) (.retA :: rest) r = some r.a := rfl

theorem run_ld_some {src : Source} {v : UInt32} (h : src.value p r = some v) :
    run p (fuel + 1) (.ld src :: rest) r = run p fuel rest { r with a := v } := by
  simp only [run, Instr.exec, h, List.drop_zero]

/-- A read outside of the packet drops it. -/
theorem run_ld_none {src : Source} (h : src.value p r = none) :
    run p (fuel + 1) (.ld src :: rest) r = some 0 := by
  simp only [run, Instr.exec, h]

theorem run_jmp (test : Test) (operand : Operand) (jt jf : Nat) :
    run p (fuel + 1) (.jmp test operand jt jf :: rest) r
      = run p fuel (rest.drop (if test.holds r.a (operand.value r) then jt else jf)) r := rfl

end

end Bpf

end Tachyon
