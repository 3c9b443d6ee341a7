import Mathlib.Data.List.DropRight
import Parlance.Trace
/-!
A ring is a window on the events of a trace: it holds the newest of them, in the order in which they came.
-/
open List

namespace Parlance.Trace.Ring

variable {α σ : Type}

/-- The slots of a ring on both sides of its head. -/
structure Cut (r : Ring α) (before : List α) (old : α) (after : List α) : Prop where
  slots : r.slots.toList = before ++ old :: after
  head : r.head = before.length

theorem exists_cut (r : Ring α) : ∃ before old after, r.Cut before old after := by
  have hlt := r.head_lt
  obtain ⟨old, after, hdrop⟩ : ∃ old after, r.slots.toList.drop r.head = old :: after :=
    exists_cons_of_length_pos (by simp only [length_drop, Array.length_toList]; omega)
  refine ⟨r.slots.toList.take r.head, old, after, ?_, ?_⟩
  · rw [← hdrop, take_append_drop]
  · rw [length_take, Array.length_toList]
    omega

variable {r : Ring α} {before after : List α} {old : α}

theorem Cut.size (h : r.Cut before old after) : r.slots.size = before.length + after.length + 1 := by
  rw [← Array.length_toList, h.slots, length_append, length_cons, Nat.add_assoc]

theorem Cut.snapshot (h : r.Cut before old after) : r.snapshot = if r.full then old :: after ++ before else before := by
  rw [Ring.snapshot, h.slots, h.head, drop_left, take_left]

/-- The head passes on to the next slot, or from the last one back to the first. -/
theorem Cut.snapshot_emit (h : r.Cut before old after) (a : α) :
    (r.emit a).snapshot = if r.full then after ++ before ++ [a] else before ++ [a] := by
  have hset : (r.emit a).slots.toList = before ++ a :: after := by
    rw [emit, Array.toList_set, h.slots, h.head, set_append_right _ _ le_rfl, Nat.sub_self, set_cons_zero]
  have hhead : (r.emit a).head = (before.length + 1) % (before.length + after.length + 1) := by
    rw [← h.size, ← h.head]
    rfl
  have hfull : (r.emit a).full = (r.full || (r.emit a).head == 0) := rfl
  cases after with
  | nil =>
    rw [length_nil, Nat.add_zero, Nat.mod_self] at hhead
    simp [Ring.snapshot, hset, hfull, hhead]
  | cons next after =>
    rw [Nat.mod_eq_of_lt (by simp)] at hhead
    have hcut : (r.emit a).Cut (before ++ [a]) next after := ⟨by simp [hset], by simp [hhead]⟩
    simp [hcut.snapshot, hfull, hhead]

/-- One more event drops the oldest if the ring is full. -/
theorem snapshot_emit (r : Ring α) (a : α) : (r.emit a).snapshot = (r.snapshot ++ [a]).rtake r.slots.size := by
  obtain ⟨before, old, after, h⟩ := r.exists_cut
  rw [h.snapshot_emit, h.snapshot, h.size, rtake]
  split
  · rw [show (old :: after ++ before ++ [a]).length - (before.length + after.length + 1) = 1 by simp; omega]
    simp
  · rw [show (before ++ [a]).length - (before.length + after.length + 1) = 0 by simp]
    simp

theorem size_emitAll [Inhabited α] (size : Int) (es : List α) :
    (es.foldl emit (empty size)).slots.size = slotsFor size :=
  foldlRecOn es emit (motive := fun r : Ring α => r.slots.size = slotsFor size) (by simp [empty])
    fun r hr a _ => by simpa [emit] using hr

theorem rtake_concat (n : Nat) (l : List α) (a : α) : (l.rtake n ++ [a]).rtake n = (l ++ [a]).rtake n := by
  simp only [rtake, length_append, length_drop, length_singleton, drop_append, drop_drop]
  congr 1
  · congr 1
    omega
  · congr 1
    omega

theorem snapshot_emitAll [Inhabited α] (size : Int) (es : List α) :
    (es.foldl emit (empty size)).snapshot = es.rtake (slotsFor size) := by
  induction es using reverseRecOn with
  | nil => simp [empty, Ring.snapshot]
  | append_singleton es a ih =>
    rw [foldl_append, foldl_cons, foldl_nil, snapshot_emit, size_emitAll, ih, rtake_concat]

/-- At each moment of a run, when the first `k` events have come, a ring of `n` slots shows the last of them, `n`
or as many as there are, the oldest first. When it is closed then, these are written in this order. -/
theorem shows_newest [Inhabited α] (n : Nat) (hn : 0 < n) (es : List α) (k : Nat) (write : σ → α → σ) (w : σ) :
    let r := (es.take k).foldl emit (empty n)
    r.snapshot = (es.take k).rtake n ∧ r.snapshot.length = min n (es.take k).length ∧
      r.close write w = ((es.take k).rtake n).foldl write w := by
  have hslots : slotsFor n = n := by
    rw [slotsFor, if_neg (by omega), Int.toNat_natCast]
  have hshown := snapshot_emitAll n (es.take k)
  rw [hslots] at hshown
  refine ⟨hshown, ?_, congrArg (foldl write w) hshown⟩
  rw [hshown, rtake, length_drop]
  omega

/-- Seven events go more than twice round a ring of three. -/
theorem shows_newest_of_seven : (([1, 2, 3, 4, 5, 6, 7].foldl emit (empty 3) : Ring Nat).snapshot = [5, 6, 7]) ∧
    ([1, 2, 3, 4, 5, 6, 7].foldl emit (empty 3) : Ring Nat).close (fun w e => w ++ [e]) [0] = [0, 5, 6, 7] := by
  obtain ⟨hsnapshot, -, hclose⟩ := shows_newest 3 (by decide) [1, 2, 3, 4, 5, 6, 7] 7 (fun w e => w ++ [e]) [0]
  exact ⟨hsnapshot, hclose⟩

end Parlance.Trace.Ring
