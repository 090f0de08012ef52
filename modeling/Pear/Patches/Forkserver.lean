import Pear.X86.Cells
import Pear.Patches.Symbols

/-! # The compiled forkserver

`__afl_start_forkserver` with the functions that it calls and the handler that it installs, linked
together, and the variables and stack slots that they work on.
-/
namespace Pear.Patches
open X86 hiding Op Instr Line Env exec execAll execAll_nil execAll_cons execAll_append
open Compiled hiding Op Instr Line
open Instrumentation hiding Op Instr Operand labelled

def aflStartForkserver : List Line :=
  labelled (.lfb 12) [
    .op (.push .rbp),
    .op (.mov .qword .rbp (.reg .rsp)),
    .op (.alu .sub .qword .rsp (.imm 192)),
    .op (.mov .dword .rax (.mem (var .aflAlreadyInitializedForkserver))),
    .op (.test .dword .rax .rax),
    .jcc .ne (.l 67),
    .op (.store .dword (var .aflAlreadyInitializedForkserver) (.imm 1)),
    .op (.lea .rax (slot 176)),
    .op (.mov .qword .rdx (.reg .rax)),
    .op (.mov .dword .rsi (.imm 0)),
    .op (.mov .dword .rdi (.imm 15)),
    .call (.func .sigaction),
    .op (.mov .qword .rax (.mem (slot 176))),
    .op (.store .qword (var .oldSigtermHandler) (.reg .rax)),
    .op (.lea .rax (func .atExit)),
    .op (.mov .qword .rsi (.reg .rax)),
    .op (.mov .dword .rdi (.imm 15)),
    .call (.func .signal),
    .op (.store .dword (slot 180) (.imm 0)),
    .op (.store .dword (slot 184) (.imm 0)),
    .op (.store .dword (slot 4) (.imm 0)),
    .op (.store .byte (slot 5) (.imm 0)),
    .op (.mov .dword .rsi (.imm 0)),
    .op (.mov .dword .rdi (.imm 17)),
    .call (.func .signal),
    .op (.store .qword (slot 16) (.reg .rax)),
    .op (.mov .dword .rax (.mem (var .aflMapSize))),
    .op (.cmp .dword (.reg .rax) (.imm 8388608)),
    .jcc .a (.l 43),
    .op (.mov .dword .rax (.mem (var .aflMapSize))),
    .op (.cmp .dword (.reg .rax) (.imm 1)),
    .jcc .be (.l 44),
    .op (.mov .dword .rax (.mem (var .aflMapSize))),
    .op (.cmp .dword (.reg .rax) (.imm 8388608)),
    .jcc .a (.l 44),
    .op (.mov .dword .rax (.mem (var .aflMapSize))),
    .op (.alu .sub .dword .rax (.imm 1)),
    .op (.alu .add .dword .rax (.reg .rax)),
    .op (.alu .or .dword .rax (.imm 1073741824)),
    .op (.mov .dword .rdx (.reg .rax)),
    .jmp (.l 45)] ++
  labelled (.l 44) [
    .op (.mov .dword .rdx (.imm 1073741824))] ++
  labelled (.l 45) [
    .op (.mov .dword .rax (.mem (slot 184))),
    .op (.alu .or .dword .rax (.reg .rdx)),
    .op (.store .dword (slot 184) (.reg .rax))] ++
  labelled (.l 43) [
    .op (.mov .dword .rax (.mem (var .aflSharedmemFuzzing))),
    .op (.test .dword .rax .rax),
    .jcc .e (.l 46),
    .op (.mov .dword .rax (.mem (slot 184))),
    .op (.alu .or .dword .rax (.imm 16777216)),
    .op (.store .dword (slot 184) (.reg .rax))] ++
  labelled (.l 46) [
    .op (.mov .dword .rax (.mem (slot 184))),
    .op (.test .dword .rax .rax),
    .jcc .e (.l 47),
    .op (.mov .dword .rax (.mem (slot 184))),
    .op (.alu .or .dword .rax (.imm (-2113929215))),
    .op (.store .dword (slot 184) (.reg .rax))] ++
  labelled (.l 47) [
    .op (.mov .dword .rax (.mem (slot 184))),
    .op (.store .dword (slot 180) (.reg .rax)),
    .op (.lea .rax (slot 180)),
    .op (.mov .dword .rdx (.imm 4)),
    .op (.mov .qword .rsi (.reg .rax)),
    .op (.mov .dword .rdi (.imm 199)),
    .call (.func .write),
    .op (.cmp .qword (.reg .rax) (.imm 4)),
    .jcc .ne (.l 68),
    .op (.store .dword (var .aflConnected) (.imm 1)),
    .op (.mov .dword .rax (.mem (var .aflSharedmemFuzzing))),
    .op (.test .dword .rax .rax),
    .jcc .e (.l 65),
    .op (.lea .rax (slot 188)),
    .op (.mov .dword .rdx (.imm 4)),
    .op (.mov .qword .rsi (.reg .rax)),
    .op (.mov .dword .rdi (.imm 198)),
    .call (.func .read),
    .op (.cmp .qword (.reg .rax) (.imm 4)),
    .jcc .e (.l 50),
    .op (.mov .dword .rdi (.imm 1)),
    .call (.func ._exit)] ++
  labelled (.l 50) [
    .op (.mov .dword .rax (.mem (var .aflDebug))),
    .op (.test .dword .rax .rax),
    .jcc .e (.l 51),
    .op (.mov .dword .rdx (.mem (slot 188))),
    .op (.mov .qword .rax (.mem stderr)),
    .op (.lea .rcx (text "target forkserver recv: %08x\n")),
    .op (.mov .qword .rsi (.reg .rcx)),
    .op (.mov .qword .rdi (.reg .rax)),
    .op (.mov .dword .rax (.imm 0)),
    .call (.func .fprintf)] ++
  labelled (.l 51) [
    .op (.mov .dword .rax (.mem (slot 188))),
    .op (.alu .and .dword .rax (.imm (-2130706431))),
    .op (.cmp .dword (.reg .rax) (.imm (-2130706431))),
    .jcc .ne (.l 52),
    .op (.mov .dword .rax (.imm 0)),
    .call (.func .aflMapShmFuzz)] ++
  labelled (.l 52) [
    .op (.movzx .rax (.mem (var .isPersistent))),
    .op (.test .byte .rax .rax),
    .jcc .e (.l 65),
    .op (.store .dword (slot 4) (.imm 1))] ++
  labelled (.l 65) [
    .op (.cmp .dword (.mem (slot 4)) (.imm 0)),
    .jcc .e (.l 53),
    .op (.store .dword (slot 4) (.imm 0)),
    .jmp (.l 54)] ++
  labelled (.l 53) [
    .op (.lea .rax (slot 188)),
    .op (.mov .dword .rdx (.imm 4)),
    .op (.mov .qword .rsi (.reg .rax)),
    .op (.mov .dword .rdi (.imm 198)),
    .call (.func .read),
    .op (.cmp .qword (.reg .rax) (.imm 4)),
    .jcc .e (.l 54),
    .op (.mov .dword .rdi (.imm 1)),
    .call (.func ._exit)] ++
  labelled (.l 54) [
    .op (.cmp .byte (.mem (slot 5)) (.imm 0)),
    .jcc .e (.l 55),
    .op (.mov .dword .rax (.mem (slot 188))),
    .op (.test .dword .rax .rax),
    .jcc .e (.l 55),
    .op (.store .byte (slot 5) (.imm 0)),
    .op (.mov .dword .rax (.mem (var .childPid))),
    .op (.lea .rcx (slot 192)),
    .op (.mov .dword .rdx (.imm 0)),
    .op (.mov .qword .rsi (.reg .rcx)),
    .op (.mov .dword .rdi (.reg .rax)),
    .call (.func .waitpid),
    .op (.test .dword .rax .rax),
    .jcc .ns (.l 55),
    .op (.mov .qword .rax (.mem stderr)),
    .op (.mov .qword .rcx (.reg .rax)),
    .op (.mov .dword .rdx (.imm 35)),
    .op (.mov .dword .rsi (.imm 1)),
    .op (.lea .rax (text "ERROR: child_stopped && was_killed\n")),
    .op (.mov .qword .rdi (.reg .rax)),
    .call (.func .fwrite),
    .op (.mov .dword .rdi (.imm 1)),
    .call (.func ._exit)] ++
  labelled (.l 55) [
    .op (.cmp .byte (.mem (slot 5)) (.imm 0)),
    .jcc .ne (.l 56),
    .call (.func .fork),
    .op (.store .dword (var .childPid) (.reg .rax)),
    .op (.mov .dword .rax (.mem (var .childPid))),
    .op (.test .dword .rax .rax),
    .jcc .ns (.l 57),
    .op (.mov .qword .rax (.mem stderr)),
    .op (.mov .qword .rcx (.reg .rax)),
    .op (.mov .dword .rdx (.imm 12)),
    .op (.mov .dword .rsi (.imm 1)),
    .op (.lea .rax (text "ERROR: fork\n")),
    .op (.mov .qword .rdi (.reg .rax)),
    .call (.func .fwrite),
    .op (.mov .dword .rdi (.imm 1)),
    .call (.func ._exit)] ++
  labelled (.l 57) [
    .op (.mov .dword .rax (.mem (var .childPid))),
    .op (.test .dword .rax .rax),
    .jcc .ne (.l 58),
    .op (.mov .qword .rax (.mem (slot 16))),
    .op (.mov .qword .rsi (.reg .rax)),
    .op (.mov .dword .rdi (.imm 17)),
    .call (.func .signal),
    .op (.mov .qword .rax (.mem (var .oldSigtermHandler))),
    .op (.mov .qword .rsi (.reg .rax)),
    .op (.mov .dword .rdi (.imm 15)),
    .call (.func .signal),
    .op (.mov .dword .rdi (.imm 198)),
    .call (.func .close),
    .op (.mov .dword .rdi (.imm 199)),
    .call (.func .close),
    .jmp (.l 40)] ++
  labelled (.l 56) [
    .op (.mov .dword .rax (.mem (var .childPid))),
    .op (.mov .dword .rsi (.imm 18)),
    .op (.mov .dword .rdi (.reg .rax)),
    .call (.func .kill),
    .op (.store .byte (slot 5) (.imm 0))] ++
  labelled (.l 58) [
    .op (.mov .dword .rdx (.imm 4)),
    .op (.lea .rax (var .childPid)),
    .op (.mov .qword .rsi (.reg .rax)),
    .op (.mov .dword .rdi (.imm 199)),
    .call (.func .write),
    .op (.cmp .qword (.reg .rax) (.imm 4)),
    .jcc .e (.l 59),
    .op (.mov .qword .rax (.mem stderr)),
    .op (.mov .qword .rcx (.reg .rax)),
    .op (.mov .dword .rdx (.imm 25)),
    .op (.mov .dword .rsi (.imm 1)),
    .op (.lea .rax (text "ERROR: write to afl-fuzz\n")),
    .op (.mov .qword .rdi (.reg .rax)),
    .call (.func .fwrite),
    .op (.mov .dword .rdi (.imm 1)),
    .call (.func ._exit)] ++
  labelled (.l 59) [
    .op (.movzx .rax (.mem (var .isPersistent))),
    .op (.test .byte .rax .rax),
    .jcc .e (.l 60),
    .op (.mov .dword .rdx (.imm 2)),
    .jmp (.l 61)] ++
  labelled (.l 60) [
    .op (.mov .dword .rdx (.imm 0))] ++
  labelled (.l 61) [
    .op (.mov .dword .rax (.mem (var .childPid))),
    .op (.lea .rcx (slot 192)),
    .op (.mov .qword .rsi (.reg .rcx)),
    .op (.mov .dword .rdi (.reg .rax)),
    .call (.func .waitpid),
    .op (.test .dword .rax .rax),
    .jcc .ns (.l 62),
    .op (.mov .qword .rax (.mem stderr)),
    .op (.mov .qword .rcx (.reg .rax)),
    .op (.mov .dword .rdx (.imm 15)),
    .op (.mov .dword .rsi (.imm 1)),
    .op (.lea .rax (text "ERROR: waitpid\n")),
    .op (.mov .qword .rdi (.reg .rax)),
    .call (.func .fwrite),
    .op (.mov .dword .rdi (.imm 1)),
    .call (.func ._exit)] ++
  labelled (.l 62) [
    .op (.mov .dword .rax (.mem (slot 192))),
    .op (.movzx .rax (.reg .rax)),
    .op (.cmp .dword (.reg .rax) (.imm 127)),
    .jcc .ne (.l 63),
    .op (.store .byte (slot 5) (.imm 1))] ++
  labelled (.l 63) [
    .op (.lea .rax (slot 192)),
    .op (.mov .dword .rdx (.imm 4)),
    .op (.mov .qword .rsi (.reg .rax)),
    .op (.mov .dword .rdi (.imm 199)),
    .call (.func .write),
    .op (.cmp .qword (.reg .rax) (.imm 4)),
    .jcc .e (.l 65),
    .op (.mov .qword .rax (.mem stderr)),
    .op (.mov .qword .rcx (.reg .rax)),
    .op (.mov .dword .rdx (.imm 27)),
    .op (.mov .dword .rsi (.imm 1)),
    .op (.lea .rax (text "ERROR: writing to afl-fuzz\n")),
    .op (.mov .qword .rdi (.reg .rax)),
    .call (.func .fwrite),
    .op (.mov .dword .rdi (.imm 1)),
    .call (.func ._exit)] ++
  labelled (.l 67) [
    .op .nop,
    .jmp (.l 40)] ++
  labelled (.l 68) [
    .op .nop] ++
  labelled (.l 40) [
    .op .leave,
    .ret]

def aflMapShmFuzz : List Line :=
  labelled (.lfb 11) [
    .op (.push .rbp),
    .op (.mov .qword .rbp (.reg .rsp)),
    .op (.alu .sub .qword .rsp (.imm 32)),
    .op (.lea .rax (text "__AFL_SHM_FUZZ_ID")),
    .op (.mov .qword .rdi (.reg .rax)),
    .call (.func .getenv),
    .op (.store .qword (slot 8) (.reg .rax)),
    .op (.mov .dword .rax (.mem (var .aflDebug))),
    .op (.test .dword .rax .rax),
    .jcc .e (.l 32),
    .op (.cmp .qword (.mem (slot 8)) (.imm 0)),
    .jcc .e (.l 33),
    .op (.mov .qword .rax (.mem (slot 8))),
    .jmp (.l 34)] ++
  labelled (.l 33) [
    .op (.lea .rax (text "none"))] ++
  labelled (.l 34) [
    .op (.mov .qword .rcx (.mem stderr)),
    .op (.mov .qword .rdx (.reg .rax)),
    .op (.lea .rax (text "DEBUG: fuzzcase shmem %s\n")),
    .op (.mov .qword .rsi (.reg .rax)),
    .op (.mov .qword .rdi (.reg .rcx)),
    .op (.mov .dword .rax (.imm 0)),
    .call (.func .fprintf)] ++
  labelled (.l 32) [
    .op (.cmp .qword (.mem (slot 8)) (.imm 0)),
    .jcc .e (.l 35),
    .op (.store .qword (slot 16) (.imm 0)),
    .op (.mov .qword .rax (.mem (slot 8))),
    .op (.mov .qword .rdi (.reg .rax)),
    .call (.func .atoi),
    .op (.store .dword (slot 20) (.reg .rax)),
    .op (.mov .dword .rax (.mem (slot 20))),
    .op (.mov .dword .rdx (.imm 0)),
    .op (.mov .dword .rsi (.imm 0)),
    .op (.mov .dword .rdi (.reg .rax)),
    .call (.func .shmat),
    .op (.store .qword (slot 16) (.reg .rax)),
    .op (.cmp .qword (.mem (slot 16)) (.imm 0)),
    .jcc .e (.l 36),
    .op (.cmp .qword (.mem (slot 16)) (.imm (-1))),
    .jcc .ne (.l 37)] ++
  labelled (.l 36) [
    .op (.lea .rax (text "Could not access fuzzing shared memory")),
    .op (.mov .qword .rdi (.reg .rax)),
    .call (.func .perror),
    .op (.mov .dword .rdi (.imm 4)),
    .call (.func .sendForkserverError),
    .op (.mov .dword .rdi (.imm 1)),
    .call (.func .exit)] ++
  labelled (.l 37) [
    .op (.mov .qword .rax (.mem (slot 16))),
    .op (.store .qword (var .aflFuzzLen) (.reg .rax)),
    .op (.mov .qword .rax (.mem (slot 16))),
    .op (.alu .add .qword .rax (.imm 4)),
    .op (.store .qword (var .aflFuzzPtr) (.reg .rax)),
    .op (.mov .dword .rax (.mem (var .aflDebug))),
    .op (.test .dword .rax .rax),
    .jcc .e (.l 39),
    .op (.mov .qword .rax (.mem stderr)),
    .op (.mov .qword .rcx (.reg .rax)),
    .op (.mov .dword .rdx (.imm 46)),
    .op (.mov .dword .rsi (.imm 1)),
    .op (.lea .rax (text "DEBUG: successfully got fuzzing shared memory\n")),
    .op (.mov .qword .rdi (.reg .rax)),
    .call (.func .fwrite),
    .jmp (.l 39)] ++
  labelled (.l 35) [
    .op (.mov .qword .rax (.mem stderr)),
    .op (.mov .qword .rcx (.reg .rax)),
    .op (.mov .dword .rdx (.imm 53)),
    .op (.mov .dword .rsi (.imm 1)),
    .op (.lea .rax (text "Error: variable for fuzzing shared memory is not set\n")),
    .op (.mov .qword .rdi (.reg .rax)),
    .call (.func .fwrite),
    .op (.mov .dword .rdi (.imm 4)),
    .call (.func .sendForkserverError),
    .op (.mov .dword .rdi (.imm 1)),
    .call (.func .exit)] ++
  labelled (.l 39) [
    .op .nop,
    .op .leave,
    .ret]

def sendForkserverError : List Line :=
  labelled (.lfb 7) [
    .op (.push .rbp),
    .op (.mov .qword .rbp (.reg .rsp)),
    .op (.alu .sub .qword .rsp (.imm 32)),
    .op (.store .dword (slot 20) (.reg .rdi)),
    .op (.cmp .dword (.mem (slot 20)) (.imm 0)),
    .jcc .e (.l 11),
    .op (.cmp .dword (.mem (slot 20)) (.imm 65535)),
    .jcc .g (.l 11),
    .op (.mov .dword .rax (.mem (slot 20))),
    .op (.sal8 .rax),
    .op (.alu .and .dword .rax (.imm 16776960)),
    .op (.alu .or .dword .rax (.imm (-134217585))),
    .op (.store .dword (slot 4) (.reg .rax)),
    .op (.lea .rax (slot 4)),
    .op (.mov .dword .rdx (.imm 4)),
    .op (.mov .qword .rsi (.reg .rax)),
    .op (.mov .dword .rdi (.imm 199)),
    .call (.func .write),
    .op (.cmp .qword (.reg .rax) (.imm 4)),
    .jmp (.l 5)] ++
  labelled (.l 11) [
    .op .nop] ++
  labelled (.l 5) [
    .op .leave,
    .ret]

def atExit : List Line :=
  labelled (.lfb 10) [
    .op (.push .rbp),
    .op (.mov .qword .rbp (.reg .rsp)),
    .op (.alu .sub .qword .rsp (.imm 16)),
    .op (.store .dword (slot 4) (.reg .rdi)),
    .op (.mov .dword .rax (.mem (var .childPid))),
    .op (.test .dword .rax .rax),
    .jcc .le (.l 30),
    .op (.mov .dword .rax (.mem (var .childPid))),
    .op (.mov .dword .rsi (.imm 9)),
    .op (.mov .dword .rdi (.reg .rax)),
    .call (.func .kill),
    .op (.mov .dword .rax (.mem (var .childPid))),
    .op (.mov .dword .rdx (.imm 0)),
    .op (.mov .dword .rsi (.imm 0)),
    .op (.mov .dword .rdi (.reg .rax)),
    .call (.func .waitpid),
    .op (.store .dword (var .childPid) (.imm (-1)))] ++
  labelled (.l 30) [
    .op (.mov .dword .rdi (.imm 0)),
    .call (.func ._exit)]

def forkserverCode : List Line := aflStartForkserver ++ aflMapShmFuzz ++ sendForkserverError ++ atExit

def forkserverEntry : Symbol → Option Label
  | .func .aflStartForkserver => some (.lfb 12)
  | .func .aflMapShmFuzz => some (.lfb 11)
  | .func .sendForkserverError => some (.lfb 7)
  | .func .atExit => some (.lfb 10)
  | _ => none

theorem length_forkserverCode : forkserverCode.length = 354 := by decide +kernel

def forkserverLine : Label → ℕ
  | .lfb 12 => 0 | .l 44 => 41 | .l 45 => 42 | .l 43 => 45 | .l 46 => 51 | .l 47 => 57 | .l 50 => 79
  | .l 51 => 89 | .l 52 => 95 | .l 65 => 99 | .l 53 => 103 | .l 54 => 112 | .l 55 => 135 | .l 57 => 151
  | .l 56 => 167 | .l 58 => 172 | .l 59 => 188 | .l 60 => 193 | .l 61 => 194 | .l 62 => 210 | .l 63 => 215
  | .l 67 => 231 | .l 68 => 233 | .l 40 => 234
  | .lfb 11 => 236 | .l 33 => 250 | .l 34 => 251 | .l 32 => 258 | .l 36 => 275 | .l 37 => 282 | .l 35 => 298
  | .l 39 => 309
  | .lfb 7 => 312 | .l 11 => 332 | .l 5 => 333
  | .lfb 10 => 335 | .l 30 => 352
  | _ => 354

theorem forkserver_targets : ∀ x ∈ forkserverCode, ∀ l ∈ x.instr.target,
    labelLine forkserverCode l = forkserverLine l := by decide +kernel

theorem forkserver_entries : ∀ l ∈ [Label.lfb 12,.lfb 11,.lfb 7,.lfb 10],
    labelLine forkserverCode l = forkserverLine l := by decide +kernel

def forkserverCalls : List (ℕ × Routine) := [
  (11,.sigaction),(17,.signal),(24,.signal),(63,.write),(74,.read),(78,._exit),(88,.fprintf),
  (107,.read),(111,._exit),(123,.waitpid),(132,.fwrite),(134,._exit),(137,.fork),(148,.fwrite),
  (150,._exit),(157,.signal),(161,.signal),(163,.close),(165,.close),(170,.kill),(176,.write),
  (185,.fwrite),(187,._exit),(198,.waitpid),(207,.fwrite),(209,._exit),(219,.write),(228,.fwrite),
  (230,._exit),
  (241,.getenv),(257,.fprintf),(263,.atoi),(269,.shmat),(277,.perror),(281,.exit),(296,.fwrite),
  (304,.fwrite),(308,.exit),
  (329,.write),
  (345,.kill),(350,.waitpid),(353,._exit)]

theorem forkserver_calls : ∀ c ∈ forkserverCalls, forkserverEntry (.func c.2) = none ∧
    (forkserverCode[c.1]?.bind fun x => x.instr.callee) = some (.func c.2) := by decide +kernel

end Pear.Patches
