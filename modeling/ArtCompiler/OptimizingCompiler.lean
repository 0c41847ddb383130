import Mathlib

/-!
# The driver of the optimizing compiler

`OptimizingCompiler::TryCompile` (optimizing_compiler.cc) decides, for one method, whether the
optimizing backend compiles it and along which path. Everything it consults is outside the
repository: the instruction set of the driver, the method's symbol, whether `HGraphBuilder` built
a graph, whether `CodeGenerator::Create` found a code generator, and the two capability tests of
the register allocator. `Collaborators` holds their answers, and `tryCompile` is the decision
itself, recording the phases it runs on the graph.

`Compile` falls back on the delegate, the quick compiler, when `TryCompile` returns `nullptr`
(`compile`).

The decision reads a handful of yes-or-no answers, so its whole content is the three inversion
lemmas, one per outcome. A method is compiled exactly on `x86`, `x86_64` and Thumb-2 (ARM read as
Thumb-2) once the graph and a code generator exist, along the optimized path when the registers
can be allocated and otherwise along the baseline path, unless the method is marked `$reg$` for an
instruction set the allocator supports (`tryCompile_compiled_iff`); `nullptr`
comes back exactly on another instruction set or, for a method not marked `$opt$`, when the graph
or the code generator is missing (`tryCompile_notCompiled_iff`); and each `LOG(FATAL)` names the
step that failed for a method carrying a testing marker (`tryCompile_fatal_iff`).
-/

namespace Art

/-- The instruction sets `TryCompile` tells apart. The enum is declared in `instruction_set.h`,
which is not among the sources; every other value is `other n`. -/
inductive InstructionSet
  | kArm
  | kThumb2
  | kX86
  | kX86_64
  | other (n : Nat)
  deriving DecidableEq, Repr

/-- The phases `TryCompile` runs on the graph and the code generator, in the order of the calls. -/
inductive Phase
  | buildDominatorTree
  | transformToSsa
  | findNaturalLoops
  | ssaRedundantPhiElimination
  | ssaDeadPhiElimination
  | livenessAnalysis
  | allocateRegisters
  | compileOptimized
  | compileBaseline
  | buildMappingTable (withSrcMap : Bool)
  | buildVMapTable
  | buildNativeGCMap
  deriving DecidableEq, Repr

/-- The answers of the collaborators `TryCompile` consults for one method. -/
structure Collaborators where
  /-- `GetCompilerDriver()->GetInstructionSet()`. -/
  instructionSet : InstructionSet
  /-- `dex_compilation_unit.GetSymbol()`. -/
  symbol : String
  /-- `builder.BuildGraph(*code_item) != nullptr`. -/
  graphBuilt : Bool
  /-- `CodeGenerator::Create(&arena, graph, instruction_set) != nullptr`. -/
  codegenFound : InstructionSet → Bool
  /-- `RegisterAllocator::CanAllocateRegistersFor(*graph, instruction_set)`. -/
  canAllocate : InstructionSet → Bool
  /-- `RegisterAllocator::Supports(instruction_set)`. -/
  supports : InstructionSet → Bool
  /-- `GetCompilerOptions().GetIncludeDebugSymbols()`. -/
  includeDebugSymbols : Bool

/-- What `TryCompile` ends in: a `CompiledMethod` for an instruction set, with the phases run to
produce it; `nullptr`; or `LOG(FATAL)` with its message. -/
inductive Outcome
  | compiled (instructionSet : InstructionSet) (phases : List Phase)
  | notCompiled
  | fatal (message : String)
  deriving DecidableEq, Repr

namespace Collaborators

variable (c : Collaborators)

/-- `std::string::find(marker) != std::string::npos` on the method's symbol. -/
def hasMarker (marker : String) : Bool :=
  decide (marker.toList.IsInfix c.symbol.toList)

/-- `shouldCompile`: the symbol carries the marker of methods this compiler must compile. -/
def shouldCompile : Bool :=
  c.hasMarker "00024opt_00024"

/-- `shouldOptimize`: the symbol carries the marker of methods whose registers must be allocated. -/
def shouldOptimize : Bool :=
  c.hasMarker "00024reg_00024"

/-- The instruction set compiled for: ARM always uses the Thumb-2 assembler. -/
def targetIsa : InstructionSet :=
  if c.instructionSet = .kArm then .kThumb2 else c.instructionSet

end Collaborators

/-- The instruction sets the optimizing compiler generates code for. -/
def Supported (isa : InstructionSet) : Prop :=
  isa = .kX86 ∨ isa = .kX86_64 ∨ isa = .kThumb2

instance : DecidablePred Supported := fun _ => inferInstanceAs (Decidable (_ ∨ _))

/-- The phases of the register-allocating path: SSA, phi elimination, liveness and allocation,
then optimized code generation. -/
def optimizedPhases : List Phase :=
  [.buildDominatorTree, .transformToSsa, .findNaturalLoops, .ssaRedundantPhiElimination,
    .ssaDeadPhiElimination, .livenessAnalysis, .allocateRegisters, .compileOptimized]

/-- The phases of the baseline path: baseline code generation, then the SSA and liveness phases
run for test coverage only. -/
def baselinePhases : List Phase :=
  [.compileBaseline, .buildDominatorTree, .transformToSsa, .findNaturalLoops, .livenessAnalysis]

/-- The tables built for every compiled method; the source map is filled only when debug symbols
are requested. -/
def tablePhases (includeDebugSymbols : Bool) : List Phase :=
  [.buildMappingTable includeDebugSymbols, .buildVMapTable, .buildNativeGCMap]

/-- `OptimizingCompiler::TryCompile`. -/
def tryCompile (c : Collaborators) : Outcome :=
  if ¬ Supported c.targetIsa then .notCompiled
  else if ¬ c.graphBuilt then
    if c.shouldCompile then .fatal "Could not build graph in optimizing compiler" else .notCompiled
  else if ¬ c.codegenFound c.targetIsa then
    if c.shouldCompile then .fatal "Could not find code generator for optimizing compiler"
    else .notCompiled
  else if c.canAllocate c.targetIsa then
    .compiled c.targetIsa (optimizedPhases ++ tablePhases c.includeDebugSymbols)
  else if c.shouldOptimize ∧ c.supports c.targetIsa then
    .fatal "Could not allocate registers in optimizing compiler"
  else .compiled c.targetIsa (baselinePhases ++ tablePhases c.includeDebugSymbols)

/-- What `OptimizingCompiler::Compile` returns: the method compiled here, or the delegate's. -/
inductive CompileResult
  | optimizing (instructionSet : InstructionSet) (phases : List Phase)
  | delegated
  | fatal (message : String)
  deriving DecidableEq, Repr

/-- `OptimizingCompiler::Compile`: `TryCompile`, and the delegate when it returns `nullptr`. -/
def compile (c : Collaborators) : CompileResult :=
  match tryCompile c with
  | .compiled isa phases => .optimizing isa phases
  | .notCompiled => .delegated
  | .fatal message => .fatal message

/-! ## What the driver decides -/

section Decisions

variable (c : Collaborators)

/-- `TryCompile` produces a method exactly on a supported instruction set, once the graph and a
code generator exist: along the optimized path when registers can be allocated, and otherwise
along the baseline path unless the method is marked for allocation on an instruction set the
allocator supports. -/
theorem tryCompile_compiled_iff (isa : InstructionSet) (phases : List Phase) :
    tryCompile c = .compiled isa phases ↔
      isa = c.targetIsa ∧ Supported isa ∧ c.graphBuilt ∧ c.codegenFound isa ∧
        (c.canAllocate isa ∧ phases = optimizedPhases ++ tablePhases c.includeDebugSymbols ∨
          ¬ c.canAllocate isa ∧ ¬ (c.shouldOptimize ∧ c.supports isa) ∧
            phases = baselinePhases ++ tablePhases c.includeDebugSymbols) := by
  constructor
  · intro h
    unfold tryCompile at h
    split_ifs at h <;> cases h <;> simp_all
  · rintro ⟨rfl, hs, hg, hcg, ⟨hca, rfl⟩ | ⟨hca, hopt, rfl⟩⟩ <;> simp_all [tryCompile]

/-- An ARM method marked `$opt$` whose registers the allocator cannot allocate is compiled for
Thumb-2 along the baseline path, with a source map. -/
example : tryCompile ⟨.kArm, "Java_Main_00024opt_00024loop", true, fun _ => true, fun _ => false,
    fun _ => true, true⟩ = .compiled .kThumb2 (baselinePhases ++ tablePhases true) := by
  decide

/-- `TryCompile` returns `nullptr` exactly on an instruction set it does not support, or when the
graph or the code generator is missing for a method not marked `$opt$`. -/
theorem tryCompile_notCompiled_iff :
    tryCompile c = .notCompiled ↔ ¬ Supported c.targetIsa ∨
      c.shouldCompile = false ∧ (c.graphBuilt = false ∨ c.codegenFound c.targetIsa = false) := by
  unfold tryCompile
  split_ifs <;> simp_all

/-- `TryCompile` aborts at three places, each with a message naming the step that failed: a
missing graph or code generator for a method marked `$opt$`, and registers the allocator cannot
allocate for a method marked `$reg$` on an instruction set it supports. -/
theorem tryCompile_fatal_iff (message : String) :
    tryCompile c = .fatal message ↔ Supported c.targetIsa ∧
      (c.graphBuilt = false ∧ c.shouldCompile ∧
          message = "Could not build graph in optimizing compiler" ∨
        c.graphBuilt ∧ c.codegenFound c.targetIsa = false ∧ c.shouldCompile ∧
          message = "Could not find code generator for optimizing compiler" ∨
        c.graphBuilt ∧ c.codegenFound c.targetIsa ∧ c.canAllocate c.targetIsa = false ∧
          c.shouldOptimize ∧ c.supports c.targetIsa ∧
          message = "Could not allocate registers in optimizing compiler") := by
  unfold tryCompile
  split_ifs <;> simp_all <;> exact eq_comm

end Decisions

end Art
