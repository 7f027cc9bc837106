import Sabot.Blocks.Heap
import Sabot.State.RunProgram

/-! The arrays of `_chp_state` as blocks of the heap. What `Pointers` says of a state follows from
the blocks that its initialisations allocate and release.
-/

namespace Sabot.State

open Blocks (Heap)

/-- The three pointers of a state, null or the address of a block, the heap, and what the first
cell of a block of row pointers holds.
-/
structure Arrays (Owner : Type) where
  x : Option Nat
  z : Option Nat
  r : Option Nat
  heap : Heap Owner
  firstRow : Nat → Option Nat

/-- Null pointers, in a heap without blocks. -/
def Arrays.null {Owner : Type} : Arrays Owner where
  x := none
  z := none
  r := none
  heap := .empty
  firstRow _ := none

/-- Allocations of these counts in order, up to the first that is refused: how many are granted. -/
def allocateAll : List Nat → Stream' (Option Int) → Nat × Stream' (Option Int)
  | [], grants => (0, grants)
  | count :: rest, grants =>
      match allocate count grants with
      | (none, grants) => (0, grants)
      | (some _, grants) =>
          let (granted, grants) := allocateAll rest grants
          (granted + 1, grants)

variable {Owner : Type} (owner : Owner)

/-- The allocations of `init_state`: the pointer arrays, the phases and the two chunks. -/
def arrayCounts (n : Nat) : List Nat :=
  let rows := wrap (2 * n + 1)
  let chunk := wrap (rows * (n / 32 + 1))
  [rows, rows, rows, chunk, chunk]

/-- What `init_state` does to the heap. A pointer is overwritten when its array is allocated, and the
handler releases what is not null, the new and the old alike, but leaves the pointers as they are.
-/
def initArrays (n : Nat) (a : Arrays Owner) (grants : Stream' (Option Int))
    : Option (Bool × Arrays Owner × Stream' (Option Int)) :=
  let (granted, grants) := allocateAll (arrayCounts n) grants
  let heap := a.heap.newAll (((arrayCounts n).take granted).map (fun count => ⟨owner, count⟩))
  let block (k : Nat) : Option Nat := if k < granted then some (a.heap.next + k) else none
  let a := {
    a with x := (block 0).or a.x, z := (block 1).or a.z, r := (block 2).or a.r, heap := heap }
  if granted = 5 then
    let firstRow := Function.update a.firstRow (a.x.getD 0) (block 3)
    some (true, { a with firstRow := Function.update firstRow (a.z.getD 0) (block 4) }, grants)
  else do
    let heap ← heap.releaseAll [a.x, a.z, a.r, block 3, block 4]
    return (false, { a with heap := heap }, grants)

/-- The destructor's part for one matrix: the chunk that the first row points to, then the rows. -/
def releaseMatrix (firstRow : Nat → Option Nat) (pointer : Option Nat) (heap : Heap Owner)
    : Option (Heap Owner) :=
  match pointer with
  | none => some heap
  | some a => if heap.block a = none then none else heap.releaseAll [firstRow a, some a]

/-- The destructor of `_chp_state`. -/
def Arrays.destroy (a : Arrays Owner) : Option (Heap Owner) := do
  let heap ← releaseMatrix a.firstRow a.x a.heap
  let heap ← releaseMatrix a.firstRow a.z heap
  heap.releaseAll [a.r]

/-- The pointers are those of a list of up to three addresses. -/
structure Arrays.PointTo (a : Arrays Owner) (old : List Nat) : Prop where
  few : old.length ≤ 3
  x : a.x = old[0]?
  z : a.z = old[1]?
  r : a.r = old[2]?

/-- The state owns live arrays: three blocks and the two chunks that they lead to. -/
structure Arrays.Own (a : Arrays Owner) (x z r xchunk zchunk : Nat) : Prop where
  pointers : a.PointTo [x, z, r]
  distinct : [x, z, r, xchunk, zchunk].Nodup
  owned : ∀ b ∈ [x, z, r, xchunk, zchunk], ∃ count, a.heap.block b = some ⟨owner, count⟩
  firstX : a.firstRow x = some xchunk
  firstZ : a.firstRow z = some zchunk

/-- What each form of `Pointers` stands for. -/
def Describes (a : Arrays Owner) : Pointers → Prop
  | .live => ∃ x z r xchunk zchunk, a.Own owner x z r xchunk zchunk
  | .stale count => ∃ old : List Nat, old.length = count ∧ a.PointTo old ∧ old.Nodup
      ∧ ∀ b ∈ old, b < a.heap.next ∧ a.heap.block b = none
  | .freedTwice => False

/-- Counting the grants agrees with the result of the allocations. -/
theorem allocateAll_cases (n : Nat) (grants : Stream' (Option Int))
    : ∃ granted rest, allocateAll (arrayCounts n) grants = (granted, rest)
        ∧ ((granted = 5 ∧ ∃ leftover, allocateArrays (wrap (2 * n + 1))
              (wrap (wrap (2 * n + 1) * (n / 32 + 1))) grants = (.ok leftover, rest))
          ∨ granted < 5 ∧ allocateArrays (wrap (2 * n + 1))
              (wrap (wrap (2 * n + 1) * (n / 32 + 1))) grants
            = (.error (min granted 3), rest)) := by
  refine ⟨(allocateAll (arrayCounts n) grants).1, (allocateAll (arrayCounts n) grants).2, rfl, ?_⟩
  simp only [arrayCounts]
  generalize wrap (2 * n + 1) = rows
  generalize wrap (rows * (n / 32 + 1)) = chunk
  obtain ⟨x, left₁, ranX⟩ : ∃ answer left, allocate rows grants = (answer, left) := ⟨_, _, rfl⟩
  obtain ⟨z, left₂, ranZ⟩ : ∃ answer left, allocate rows left₁ = (answer, left) := ⟨_, _, rfl⟩
  obtain ⟨r, left₃, ranR⟩ : ∃ answer left, allocate rows left₂ = (answer, left) := ⟨_, _, rfl⟩
  obtain ⟨xc, left₄, ranXc⟩ : ∃ answer left, allocate chunk left₃ = (answer, left) := ⟨_, _, rfl⟩
  obtain ⟨zc, left₅, ranZc⟩ : ∃ answer left, allocate chunk left₄ = (answer, left) := ⟨_, _, rfl⟩
  cases x with
  | none => simp [allocateAll, allocateArrays, ranX]
  | some =>
  cases z with
  | none => simp [allocateAll, allocateArrays, ranX, ranZ]
  | some =>
  cases r with
  | none => simp [allocateAll, allocateArrays, ranX, ranZ, ranR]
  | some =>
  cases xc with
  | none => simp [allocateAll, allocateArrays, ranX, ranZ, ranR, ranXc]
  | some =>
  cases zc with
  | none => simp [allocateAll, allocateArrays, ranX, ranZ, ranR, ranXc, ranZc]
  | some => simp [allocateAll, allocateArrays, ranX, ranZ, ranR, ranXc, ranZc]

/-- A pointer after the allocations: new if its own was granted, and else as before. -/
theorem renewed_getElem (old : List Nat) (next granted : Nat) {k : Nat} (below : k < 3)
    : (if k < granted then some (next + k) else none).or old[k]?
      = (List.range' next (min granted 3) ++ old.drop granted)[k]? := by
  by_cases new : k < granted
  · rw [if_pos new, Option.some_or, List.getElem?_append_left (by rw [List.length_range']; omega),
      List.getElem?_range' (by omega), Nat.one_mul]
  · rw [if_neg new, Option.none_or, List.getElem?_append_right (by rw [List.length_range']; omega),
      List.length_range', List.getElem?_drop]
    congr 1
    omega

/-- The pointers to release are those of the state and the chunk that was granted, if any. -/
theorem reduceOption_pointers {old : List Nat} (few : old.length ≤ 3) (next : Nat) {granted : Nat}
    (refused : granted < 5)
    : [old[0]?, old[1]?, old[2]?, (if 3 < granted then some (next + 3) else none),
        (if 4 < granted then some (next + 4) else none)].reduceOption
      = old ++ List.range' (next + 3) (granted - 3) := by
  have chunks : [(if 3 < granted then some (next + 3) else none),
      (if 4 < granted then some (next + 4) else none)].reduceOption
      = List.range' (next + 3) (granted - 3) := by
    interval_cases granted <;> rfl
  have whole : [old[0]?, old[1]?, old[2]?].reduceOption = old := by
    match old, few with
    | [], _ => rfl
    | [_], _ => rfl
    | [_, _], _ => rfl
    | [_, _, _], _ => rfl
  rw [← chunks]
  nth_rewrite 4 [← whole]
  rw [← List.reduceOption_append]
  rfl

theorem describes_null : Describes owner Arrays.null (.stale 0) :=
  ⟨[], rfl, ⟨Nat.zero_le 3, rfl, rfl, rfl⟩, List.nodup_nil, by simp⟩

variable {owner} {a : Arrays Owner} {n : Nat} {grants : Stream' (Option Int)}

/-- All allocations granted: the state owns new arrays, whatever its pointers held before. -/
theorem initArrays_granted {leftover : Int} {rest : Stream' (Option Int)}
    (granted : allocateArrays (wrap (2 * n + 1)) (wrap (wrap (2 * n + 1) * (n / 32 + 1))) grants
      = (.ok leftover, rest))
    : ∃ left, initArrays owner n a grants = some (true, left, rest)
        ∧ Describes owner left .live := by
  obtain ⟨count, remaining, ran, ⟨rfl, _, same⟩ | ⟨_, refused⟩⟩ := allocateAll_cases n grants
  · obtain ⟨-, rfl⟩ := Prod.mk.inj (granted.symm.trans same)
    refine ⟨_, by rw [initArrays, ran]; rfl, ?_⟩
    have fresh (k : Nat) (below : k < 5)
        : ∃ count, (a.heap.newAll (((arrayCounts n).take 5).map
            (fun count => (⟨owner, count⟩ : Blocks.Block Owner)))).block (a.heap.next + k)
          = some ⟨owner, count⟩ :=
      ⟨_, (Heap.newAll_block_new _ a.heap below).trans (congrArg some (List.getElem_map _))⟩
    refine ⟨a.heap.next + 0, a.heap.next + 1, a.heap.next + 2, a.heap.next + 3,
      a.heap.next + 4, ?_⟩
    constructor
    case pointers => exact ⟨le_rfl, rfl, rfl, rfl⟩
    case distinct => simp
    case owned =>
        intro b member
        simp only [List.mem_cons, List.not_mem_nil, or_false] at member
        rcases member with rfl | rfl | rfl | rfl | rfl
        · exact fresh 0 (by decide)
        · exact fresh 1 (by decide)
        · exact fresh 2 (by decide)
        · exact fresh 3 (by decide)
        · exact fresh 4 (by decide)
    case firstX => simp
    case firstZ => simp
  · cases granted.symm.trans refused

/-- A refused allocation: each pointer leads to its new array, or is as before if it has none, and
what the pointers lead to is released, together with the chunk that was granted.
-/
theorem initArrays_refused {old : List Nat} {renewed : Nat} {rest : Stream' (Option Int)}
    (pointTo : a.PointTo old)
    (refused : allocateArrays (wrap (2 * n + 1)) (wrap (wrap (2 * n + 1) * (n / 32 + 1))) grants
      = (.error renewed, rest))
    : ∃ (blocks : List (Blocks.Block Owner)) (pointers : List Nat) (released : List (Option Nat)),
        renewed = min blocks.length 3
        ∧ pointers = List.range' a.heap.next renewed ++ old.drop renewed
        ∧ released.reduceOption
          = pointers ++ List.range' (a.heap.next + 3) (blocks.length - 3)
        ∧ initArrays owner n a grants = (do
            let heap ← (a.heap.newAll blocks).releaseAll released
            return (false, { a with
              x := pointers[0]?, z := pointers[1]?, r := pointers[2]?, heap := heap }, rest)) := by
  obtain ⟨granted, remaining, ran, ⟨_, _, same⟩ | ⟨few, same⟩⟩ := allocateAll_cases n grants
  · cases refused.symm.trans same
  · obtain ⟨renews, rfl⟩ := Prod.mk.inj (refused.symm.trans same)
    have renews : renewed = min granted 3 := Except.error.inj renews
    have upToThree := pointTo.few
    have kept : old.drop granted = old.drop renewed := by
      rcases Nat.le_total granted 3 with small | large
      · rw [renews, min_eq_left small]
      · rw [List.drop_eq_nil_of_le (by omega), List.drop_eq_nil_of_le (by omega)]
    have length : (((arrayCounts n).take granted).map
        (fun count => (⟨owner, count⟩ : Blocks.Block Owner))).length = granted := by
      rw [List.length_map, List.length_take]
      exact min_eq_left few.le
    have pointer (k : Nat) (below : k < 3)
        : (if k < granted then some (a.heap.next + k) else none).or old[k]?
          = (List.range' a.heap.next renewed ++ old.drop renewed)[k]? := by
      rw [renewed_getElem old a.heap.next granted below, kept, renews]
    refine ⟨_, List.range' a.heap.next renewed ++ old.drop renewed, _, by rw [length, renews], rfl,
      by rw [length]; exact reduceOption_pointers (by simp; omega) a.heap.next few, ?_⟩
    simp only [initArrays, ran, pointTo.x, pointTo.z, pointTo.r, pointer 0 (by decide),
      pointer 1 (by decide), pointer 2 (by decide), if_neg few.ne]

/-- If the pointers that were not renewed lead to live blocks, everything is released, once, and all
pointers are left behind.
-/
theorem initArrays_released {old : List Nat} {renewed : Nat} {rest : Stream' (Option Int)}
    (pointTo : a.PointTo old) (distinct : old.Nodup)
    (live : ∀ b ∈ old.drop renewed, a.heap.block b ≠ none)
    (refused : allocateArrays (wrap (2 * n + 1)) (wrap (wrap (2 * n + 1) * (n / 32 + 1))) grants
      = (.error renewed, rest))
    : ∃ left, initArrays owner n a grants = some (false, left, rest)
        ∧ Describes owner left (.stale (renewed + (old.length - renewed))) := by
  obtain ⟨blocks, pointers, released, renews, follow, releases, ran⟩ :=
    initArrays_refused pointTo refused
  have separate (b : Nat) (before : b ∈ old.drop renewed) : b < a.heap.next :=
    Heap.lt_next (live b before)
  have once : released.reduceOption.Nodup := by
    rw [releases, follow, List.append_assoc]
    refine List.Nodup.append List.nodup_range' ?_ ?_
    · refine List.Nodup.append (distinct.sublist (List.drop_sublist _ _)) List.nodup_range' ?_
      intro b before new
      have := separate b before
      have := List.mem_range'.mp new
      omega
    · intro b new later
      have := List.mem_range'.mp new
      rcases List.mem_append.mp later with before | chunk
      · have := separate b before
        omega
      · have := List.mem_range'.mp chunk
        omega
  have present : ∀ b ∈ released.reduceOption, (a.heap.newAll blocks).block b ≠ none := by
    intro b member
    have new (k : Nat) (below : k < blocks.length)
        : (a.heap.newAll blocks).block (a.heap.next + k) ≠ none := by
      rw [Heap.newAll_block_new blocks a.heap below]
      exact Option.some_ne_none _
    rw [releases, follow, List.append_assoc, List.mem_append, List.mem_append] at member
    rcases member with renewal | before | chunk
    · obtain ⟨k, below, rfl⟩ := List.mem_range'.mp renewal
      rw [Nat.one_mul]
      exact new k (by omega)
    · rw [Heap.newAll_block_old blocks (separate b before)]
      exact live b before
    · obtain ⟨k, below, rfl⟩ := List.mem_range'.mp chunk
      rw [Nat.one_mul, Nat.add_assoc]
      exact new (3 + k) (by omega)
  obtain ⟨heap, frees, next, after⟩ := Heap.releaseAll_live once present
  refine ⟨_, by rw [ran, frees]; rfl, pointers, ?_, ⟨?_, rfl, rfl, rfl⟩, ?_, ?_⟩
  · rw [follow, List.length_append, List.length_range', List.length_drop]
  · have := pointTo.few
    rw [follow, List.length_append, List.length_range', List.length_drop]
    omega
  · exact (List.nodup_append.mp (releases ▸ once)).1
  · intro b member
    have among : b ∈ released.reduceOption := releases ▸ List.mem_append_left _ member
    constructor
    · exact next ▸ Heap.lt_next (present b among)
    · exact (after b).trans (if_pos among)

/-- If a pointer that was not renewed leads to a released block, the block is released again. -/
theorem initArrays_freedTwice {old : List Nat} {renewed b : Nat} {rest : Stream' (Option Int)}
    (pointTo : a.PointTo old) (kept : b ∈ old.drop renewed) (old : b < a.heap.next)
    (stale : a.heap.block b = none)
    (refused : allocateArrays (wrap (2 * n + 1)) (wrap (wrap (2 * n + 1) * (n / 32 + 1))) grants
      = (.error renewed, rest))
    : initArrays owner n a grants = none := by
  obtain ⟨blocks, pointers, released, -, follow, releases, ran⟩ :=
    initArrays_refused pointTo refused
  have among : some b ∈ released := by
    rw [← List.reduceOption_mem_iff, releases, follow]
    exact List.mem_append_left _ (List.mem_append_right _ kept)
  rw [ran, Heap.releaseAll_stale among ((Heap.newAll_block_old blocks old).trans stale)]
  rfl

/-- A refused initialisation does to the blocks what `Pointers.release` says. -/
theorem initArrays_release {pointers : Pointers} {renewed : Nat} {rest : Stream' (Option Int)}
    (describes : Describes owner a pointers)
    (refused : allocateArrays (wrap (2 * n + 1)) (wrap (wrap (2 * n + 1) * (n / 32 + 1))) grants
      = (.error renewed, rest))
    : (pointers.release renewed = .freedTwice ∧ initArrays owner n a grants = none)
      ∨ ∃ left, initArrays owner n a grants = some (false, left, rest)
        ∧ Describes owner left (pointers.release renewed) := by
  cases pointers with
  | live =>
      obtain ⟨x, z, r, xchunk, zchunk, own⟩ := describes
      have upToThree : renewed ≤ 3 := by
        obtain ⟨_, _, _, renews, _⟩ := @initArrays_refused _ owner _ _ _ _ _ _ own.pointers refused
        omega
      have apart : [x, z, r].Nodup := own.distinct.sublist (List.sublist_append_left _ [xchunk, zchunk])
      have live : ∀ b ∈ [x, z, r].drop renewed, a.heap.block b ≠ none := by
        intro b member
        obtain ⟨count, block⟩ := own.owned b
          (List.mem_append_left [xchunk, zchunk] (List.mem_of_mem_drop member))
        rw [block]
        exact Option.some_ne_none _
      obtain ⟨left, ran, described⟩ := initArrays_released own.pointers apart live refused
      rw [show renewed + ([x, z, r].length - renewed) = 3 by simp; omega] at described
      exact Or.inr ⟨left, ran, described⟩
  | stale count =>
      obtain ⟨old, rfl, pointTo, distinct, dead⟩ := describes
      rw [Pointers.release]
      split
      · rename_i kept
        refine Or.inl ⟨rfl, ?_⟩
        have member : old[renewed] ∈ old.drop renewed := by
          rw [List.drop_eq_getElem_cons kept]
          exact List.mem_cons_self
        obtain ⟨before, stale⟩ := dead _ (List.getElem_mem kept)
        exact initArrays_freedTwice pointTo member before stale refused
      · rename_i all
        have none_kept : old.drop renewed = [] := List.drop_eq_nil_of_le (not_lt.mp all)
        obtain ⟨left, ran, described⟩ := initArrays_released pointTo distinct
          (by simp [none_kept]) refused
        rw [Nat.sub_eq_zero_of_le (not_lt.mp all)] at described
        exact Or.inr ⟨left, ran, described⟩
  | freedTwice => exact describes.elim

/-- Both blocks of a matrix are released. -/
theorem releaseMatrix_live {firstRow : Nat → Option Nat} {heap : Heap Owner} {p chunk : Nat}
    (first : firstRow p = some chunk) (distinct : [chunk, p].Nodup)
    (live : ∀ b ∈ [chunk, p], heap.block b ≠ none)
    : ∃ left, releaseMatrix firstRow (some p) heap = some left
        ∧ ∀ b, left.block b = if b ∈ [chunk, p] then none else heap.block b := by
  obtain ⟨left, ran, -, after⟩ := @Heap.releaseAll_live Owner [some chunk, some p] heap
    distinct live
  refine ⟨left, ?_, after⟩
  rw [releaseMatrix, first, if_neg (live p (by simp))]
  exact ran

/-- The destructor goes well on null pointers and on live arrays, and on nothing else. -/
theorem destroy_iff {pointers : Pointers} (describes : Describes owner a pointers)
    : a.destroy ≠ none ↔ pointers = .live ∨ pointers = .stale 0 := by
  cases pointers with
  | live =>
      refine iff_of_true ?_ (Or.inl rfl)
      obtain ⟨x, z, r, xchunk, zchunk, own⟩ := describes
      have live : ∀ b ∈ [x, z, r, xchunk, zchunk], a.heap.block b ≠ none := by
        intro b member
        obtain ⟨count, block⟩ := own.owned b member
        rw [block]
        exact Option.some_ne_none _
      have distinct := own.distinct
      simp only [List.nodup_cons, List.mem_cons, List.not_mem_nil, not_or, or_false] at distinct
      obtain ⟨first, ranX, afterX⟩ := releaseMatrix_live own.firstX
        (by grind) (fun b member => live b (by grind))
      obtain ⟨second, ranZ, afterZ⟩ := @releaseMatrix_live _ _ first _ _ own.firstZ (by grind) (by
        intro b member
        rw [afterX, if_neg (by grind)]
        exact live b (by grind))
      obtain ⟨third, ranR, -⟩ := @Heap.releaseAll_live _ [some r] second (List.nodup_singleton r) (by
        intro b member
        obtain rfl := List.mem_singleton.mp member
        rw [afterZ, if_neg (by grind), afterX, if_neg (by grind)]
        exact live b (by grind))
      rw [Arrays.destroy, own.pointers.x, own.pointers.z, own.pointers.r]
      simp only [List.getElem?_cons_zero, List.getElem?_cons_succ, ranX, ranZ, ranR,
        Option.bind_eq_bind, Option.bind_some]
      exact Option.some_ne_none _
  | stale count =>
      obtain ⟨old, rfl, pointTo, distinct, dead⟩ := describes
      cases old with
      | nil =>
          refine iff_of_true ?_ (Or.inr rfl)
          rw [Arrays.destroy, pointTo.x, pointTo.z, pointTo.r]
          exact Option.some_ne_none _
      | cons b rest =>
          refine iff_of_false ?_ (by simp)
          have stale : a.heap.block b = none := (dead b List.mem_cons_self).2
          rw [Arrays.destroy, pointTo.x]
          simp [releaseMatrix, stale]
  | freedTwice => exact describes.elim

end Sabot.State
