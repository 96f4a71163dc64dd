/-!
# Opcodes

The integer instructions that the tracker knows by name, and the one name that stands for all vector
and floating point instructions.
-/

namespace TaintFlow

/-- The operation of an instruction. -/
inductive Opcode where
  -- Loads.
  | ldr | ldrb | ldrh | ldrd | ldrex | ldrsb | ldrsh
  -- Stores.
  | str | strb | strh | strd | strex
  -- Moves.
  | mov | movs | mvn | mvns | movw | movt
  -- Transforms of one source.
  | sbfx | ubfx | uxtb | uxth | sxtb | sxth | rev | rev16 | clz
  -- Arithmetic and logic on two sources.
  | adc | adcs | add | adds | addw | rsb | rsbs | rsc | sbc | sbcs | sub | subw | subs | and
  | ands | bic | bics | eor | eors | mul | orr | orrs | orn | ror | lsl | lsls | lsr | lsrs | asr
  | asrs | uadd8 | uqsub8 | sel
  -- Multiply-accumulate and long multiply.
  | mla | mls | umull | smull
  -- Branches.
  | b | bshort | bl | blx | blxind | bx | bxj
  -- Comparisons, hints, system and bit field instructions.
  | cbz | cbnz | cmn | cmp | tst | teq | it | label | svc | ldc | mcr | mrc | nop | pld | dmb
  | bfi | bfc
  -- Block transfers.
  | ldm | stmdb | ldmdb | stm
  -- Table branches, rotate with extend and the half-word multiplies.
  | tbb | tbh | rrx | smlabb | smulbb
  -- Any vector or floating point operation.
  | simd
deriving DecidableEq, Repr

namespace Opcode

/-- The opcode's name in assembly text. -/
def name : Opcode → String
  | .ldr => "ldr"
  | .ldrb => "ldrb"
  | .ldrh => "ldrh"
  | .ldrd => "ldrd"
  | .ldrex => "ldrex"
  | .ldrsb => "ldrsb"
  | .ldrsh => "ldrsh"
  | .str => "str"
  | .strb => "strb"
  | .strh => "strh"
  | .strd => "strd"
  | .strex => "strex"
  | .mov => "mov"
  | .movs => "movs"
  | .mvn => "mvn"
  | .mvns => "mvns"
  | .movw => "movw"
  | .movt => "movt"
  | .sbfx => "sbfx"
  | .ubfx => "ubfx"
  | .uxtb => "uxtb"
  | .uxth => "uxth"
  | .sxtb => "sxtb"
  | .sxth => "sxth"
  | .rev => "rev"
  | .rev16 => "rev16"
  | .clz => "clz"
  | .adc => "adc"
  | .adcs => "adcs"
  | .add => "add"
  | .adds => "adds"
  | .addw => "addw"
  | .rsb => "rsb"
  | .rsbs => "rsbs"
  | .rsc => "rsc"
  | .sbc => "sbc"
  | .sbcs => "sbcs"
  | .sub => "sub"
  | .subw => "subw"
  | .subs => "subs"
  | .and => "and"
  | .ands => "ands"
  | .bic => "bic"
  | .bics => "bics"
  | .eor => "eor"
  | .eors => "eors"
  | .mul => "mul"
  | .orr => "orr"
  | .orrs => "orrs"
  | .orn => "orn"
  | .ror => "ror"
  | .lsl => "lsl"
  | .lsls => "lsls"
  | .lsr => "lsr"
  | .lsrs => "lsrs"
  | .asr => "asr"
  | .asrs => "asrs"
  | .uadd8 => "uadd8"
  | .uqsub8 => "uqsub8"
  | .sel => "sel"
  | .mla => "mla"
  | .mls => "mls"
  | .umull => "umull"
  | .smull => "smull"
  | .b => "b"
  | .bshort => "bshort"
  | .bl => "bl"
  | .blx => "blx"
  | .blxind => "blxind"
  | .bx => "bx"
  | .bxj => "bxj"
  | .cbz => "cbz"
  | .cbnz => "cbnz"
  | .cmn => "cmn"
  | .cmp => "cmp"
  | .tst => "tst"
  | .teq => "teq"
  | .it => "it"
  | .label => "label"
  | .svc => "svc"
  | .ldc => "ldc"
  | .mcr => "mcr"
  | .mrc => "mrc"
  | .nop => "nop"
  | .pld => "pld"
  | .dmb => "dmb"
  | .bfi => "bfi"
  | .bfc => "bfc"
  | .ldm => "ldm"
  | .stmdb => "stmdb"
  | .ldmdb => "ldmdb"
  | .stm => "stm"
  | .tbb => "tbb"
  | .tbh => "tbh"
  | .rrx => "rrx"
  | .smlabb => "smlabb"
  | .smulbb => "smulbb"
  | .simd => "simd"

/-- Every opcode, in the order of their declaration. -/
def all : List Opcode :=
  [.ldr, .ldrb, .ldrh, .ldrd, .ldrex, .ldrsb, .ldrsh, .str, .strb, .strh, .strd, .strex, .mov,
   .movs, .mvn, .mvns, .movw, .movt, .sbfx, .ubfx, .uxtb, .uxth, .sxtb, .sxth, .rev, .rev16,
   .clz, .adc, .adcs, .add, .adds, .addw, .rsb, .rsbs, .rsc, .sbc, .sbcs, .sub, .subw, .subs,
   .and, .ands, .bic, .bics, .eor, .eors, .mul, .orr, .orrs, .orn, .ror, .lsl, .lsls, .lsr,
   .lsrs, .asr, .asrs, .uadd8, .uqsub8, .sel, .mla, .mls, .umull, .smull, .b, .bshort, .bl, .blx,
   .blxind, .bx, .bxj, .cbz, .cbnz, .cmn, .cmp, .tst, .teq, .it, .label, .svc, .ldc, .mcr, .mrc,
   .nop, .pld, .dmb, .bfi, .bfc, .ldm, .stmdb, .ldmdb, .stm, .tbb, .tbh, .rrx, .smlabb, .smulbb,
   .simd]

def ofName? (s : String) : Option Opcode :=
  all.find? fun o => o.name == s

end Opcode
end TaintFlow
