import Mathlib.Tactic

/-! # The module under rewriting

What the passes read of the intermediate representation: code blocks with their
identity, address and size, the typed edges of the control flow graph, and the
functions recovered from it. Sets are lists in the order they are iterated in.
-/
namespace Pear.Rewriting

inductive EdgeType
  | branch | call | fallthrough | ret | syscall | sysret
  deriving DecidableEq, Repr

structure CodeBlock where
  uuid : BitVec 128
  address : ℕ
  size : ℕ
  deriving DecidableEq, Repr

structure Edge where
  source : CodeBlock
  target : CodeBlock
  type : EdgeType
  deriving DecidableEq, Repr

structure Function where
  name : String
  entryBlocks : List CodeBlock
  allBlocks : List CodeBlock
  deriving DecidableEq, Repr

structure Module where
  codeBlocks : List CodeBlock
  entryPoint : CodeBlock
  cfg : List Edge

/-- The address lies in `[start, start+size)`. -/
def CodeBlock.Contains (b : CodeBlock) (a : ℤ) : Prop := b.address ≤ a ∧ a < b.address + b.size

instance (b : CodeBlock) (a : ℤ) : Decidable (b.Contains a) :=
  inferInstanceAs (Decidable (_ ∧ _))

/-- `sorted(blocks, key=lambda e: e.address)`. -/
def sortedByAddress (blocks : List CodeBlock) : List CodeBlock :=
  blocks.mergeSort (fun b c => decide (b.address ≤ c.address))

theorem mem_sortedByAddress {blocks : List CodeBlock} {b : CodeBlock} :
    b ∈ sortedByAddress blocks ↔ b ∈ blocks := List.mem_mergeSort

theorem sortedByAddress_perm (blocks : List CodeBlock) : (sortedByAddress blocks).Perm blocks :=
  List.mergeSort_perm blocks _

theorem sortedByAddress_pairwise (blocks : List CodeBlock) :
    (sortedByAddress blocks).Pairwise (fun b c => b.address ≤ c.address) := by
  refine (List.pairwise_mergeSort ?_ ?_ blocks).imp (fun h => of_decide_eq_true h)
  · intro b c d hbc hcd
    exact decide_eq_true ((of_decide_eq_true hbc).trans (of_decide_eq_true hcd))
  · intro b c
    rw [Bool.or_eq_true, decide_eq_true_eq, decide_eq_true_eq]
    exact Nat.le_total b.address c.address

theorem sortedByAddress_of_pairwise {blocks : List CodeBlock}
    (h : blocks.Pairwise (fun b c => b.address ≤ c.address)) : sortedByAddress blocks = blocks :=
  List.mergeSort_of_pairwise (h.imp (fun hle => decide_eq_true hle))

/-- Blocks at distinct addresses come out in strictly increasing order. -/
theorem sortedByAddress_strict {blocks : List CodeBlock} (hn : blocks.Nodup)
    (hd : ∀ b ∈ blocks, ∀ c ∈ blocks, b.address = c.address → b = c) :
    (sortedByAddress blocks).Pairwise (fun b c => b.address < c.address) := by
  have hs : (sortedByAddress blocks).Nodup := (sortedByAddress_perm blocks).nodup_iff.mpr hn
  refine (sortedByAddress_pairwise blocks).imp₂ ?_ (List.Pairwise.and_mem.mp hs)
  intro b c hle hne
  obtain ⟨hb,hc,hbc⟩ := hne
  refine lt_of_le_of_ne hle fun he => hbc ?_
  exact hd b (mem_sortedByAddress.mp hb) c (mem_sortedByAddress.mp hc) he

end Pear.Rewriting
