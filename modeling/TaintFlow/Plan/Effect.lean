import TaintFlow.Instr.Opcode

/-!
# Effects of opcodes

How an opcode moves tags, as far as the opcode alone tells. Opcodes of one class differ in the
values they compute, not in where the marks go.
-/

namespace TaintFlow

/-- The way in which an opcode moves tags. -/
inductive Effect where
  /-- Registers take the tags of consecutive words. -/
  | load (words : Nat)
  /-- Consecutive words take the tags of registers. -/
  | store (words : Nat)
  /-- A store that also writes a status register. -/
  | storeExclusive
  /-- The destination depends on one source. -/
  | transform
  /-- The destination depends on two sources. -/
  | combine
  /-- Every destination depends on every register source. -/
  | accumulate
  /-- A branch that leaves the return address in the link register. -/
  | link
  | branch
  | blockTransfer
  /-- No tag moves. -/
  | nothing
  /-- The tracker has no rule for the opcode. -/
  | unknown
deriving DecidableEq, Repr

def Opcode.effect : Opcode → Effect
  | .ldr | .ldrb | .ldrh | .ldrex | .ldrsb | .ldrsh => .load 1
  | .ldrd => .load 2
  | .str | .strb | .strh => .store 1
  | .strd => .store 2
  | .strex => .storeExclusive
  | .mov | .movs | .mvn | .mvns | .movw | .movt | .sbfx | .ubfx | .uxtb | .uxth | .sxtb | .sxth
  | .rev | .rev16 | .clz => .transform
  | .adc | .adcs | .add | .adds | .addw | .rsb | .rsbs | .rsc | .sbc | .sbcs | .sub | .subw | .subs
  | .and | .ands | .bic | .bics | .eor | .eors | .mul | .orr | .orrs | .orn | .ror | .lsl | .lsls
  | .lsr | .lsrs | .asr | .asrs | .uadd8 | .uqsub8 | .sel => .combine
  | .mla | .mls | .umull | .smull => .accumulate
  | .bl | .blx | .blxind => .link
  | .b | .bshort | .bx | .bxj => .branch
  | .cbz | .cbnz | .cmn | .cmp | .tst | .teq | .it | .label | .svc | .ldc | .mcr | .mrc | .nop
  | .pld | .dmb | .bfi | .bfc | .simd => .nothing
  | .ldm | .stmdb => .blockTransfer
  | .ldmdb | .stm | .tbb | .tbh | .rrx | .smlabb | .smulbb => .unknown

end TaintFlow
