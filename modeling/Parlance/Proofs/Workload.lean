import Mathlib.Algebra.BigOperators.Group.Finset.Basic
import Mathlib.Algebra.Order.Group.Multiset
import Mathlib.Data.Multiset.DershowitzManna
import Mathlib.Data.Prod.Lex
import Mathlib.Tactic.Abel
import Parlance.Proofs.TaskSteps
/-!
How much work a machine has before it. A step leaves less of it, as multisets are compared, unless it asks for
a lazy value that is being worked out or stands for lazy values.
-/
namespace Parlance.Machine

open List

/-! ### What is asked for -/

def demand? : Want → List Object → Option Nat
  | .receiver _, o :: p :: _ => (cell? o).or (cell? p)
  | _, o :: _ => cell? o
  | _, [] => none

def next? (cells : Array Cell) (c : Nat) : Option Nat :=
  match cells[c]? with
  | some (.done v) => cell? v
  | _ => none

def follow (cells : Array Cell) : Nat → Nat → Option Nat
  | 0, c => some c
  | n + 1, c => (next? cells c).bind (follow cells n)

/-- However far known values are followed, there is another lazy one. -/
def Endless (cells : Array Cell) (c : Nat) : Prop := ∀ n, (follow cells n c).isSome

def awaited : List Task → List Nat
  | [] => []
  | .await c _ _ :: ts => c :: awaited ts
  | .run .. :: ts => awaited ts

/-- The cells when the task hands its value on: one that was waited for keeps it. -/
def Task.cells (t : Task) (s : State) : Array Cell :=
  match t, s.stack with
  | .await c _ _, o :: _ => s.cells.setIfInBounds c (.done o)
  | _, _ => s.cells

/-- The task on top asks for a lazy value that stands for lazy values without end. -/
def Round : List Task → State → Prop
  | [], _ => False
  | t :: _, s => ∃ want c, t.want? = some want ∧ demand? want s.stack = some c ∧ Endless (t.cells s) c

/-- The task on top asks for a lazy value that is being worked out below. -/
def Again : List Task → State → Prop
  | [], _ => False
  | t :: ts, s => ∃ want c body captured context, t.want? = some want ∧ demand? want s.stack = some c ∧
    (t.cells s)[c]? = some (.waiting body captured context) ∧ c ∈ awaited ts

/-- A lazy value that reaches itself is asked for. -/
def Relapse (ts : List Task) (s : State) : Prop := Again ts s ∨ Round ts s

/-! ### What a step does -/

def Want.weight : Want → Nat
  | .receiver _ => 2
  | _ => 1

inductive Handed (calls : Calls) (want : Want) (o : Object) (s : State) : Move → State → Prop where
  | work {c want' body captured context u} (hd : demand? want (o :: s.stack) = some c)
    (hw : want' = want ∨ want'.weight < want.weight) (hc : s.cells[c]? = some (.waiting body captured context)) :
    Handed calls want o s (.ahead [.run body context, .await c want' calls]) u
  | known {c want' v stack} {u : State} (hd : demand? want (o :: s.stack) = some c)
    (hw : want' = want ∧ cell? o = some c ∨ want'.weight < want.weight) (hc : s.cells[c]? = some (.done v))
    (hu : u.stack = v :: stack) : Handed calls want o s (.ahead [.await c want' calls]) u
  | called {is f u} (hd : calls.depth < s.maxDepth) : Handed calls want o s (.ahead [.run is (calls.push f)]) u
  | computed {u} : Handed calls want o s (.ahead []) u
  | back {u} : Handed calls want o s .back u
  | finish {r u} : Handed calls want o s (.finish r) u

variable {o : Object} {m : Move} {n : Multiset Weight} {a b d : Nat} {is : List Instruction} {i : Instruction}
  {stack : List Object} {u : State}

theorem demand?_lazy {c : Nat} (ho : cell? o = some c) (want : Want) (stack : List Object) :
    demand? want (o :: stack) = some c := by
  cases want with
  | receiver n => cases stack <;> simp [demand?, ho]
  | _ => simp [demand?, ho]

theorem handed_of_supplied {want : Want} {calls : Calls} {s t : State}
    (h : Supplied calls want o s m t) (c : Calls) : Handed calls want o s m (t.withCalls c) := by
  cases h with
  | work ho hc => exact .work (demand?_lazy ho want _) (.inl rfl) hc
  | known ho hc => exact .known (demand?_lazy ho want _) (.inl ⟨rfl, ho⟩) hc rfl
  | @operand n _ p _ _ _ _ ho hst h =>
    -- The second operand is asked for once the first one is no lazy value.
    have hless : (Want.operand n o).weight < (Want.receiver n).weight := Nat.lt_succ_self 1
    have hd {c : Nat} (hp : cell? p = some c) : demand? (.receiver n) (o :: s.stack) = some c := by
      simp [hst, demand?, ho, hp]
    cases h with
    | work hp hc => exact .work (hd hp) (.inr hless) hc
    | known hp hc => exact .known (hd hp) (.inr hless) hc rfl
    | computed => exact .computed
  | computed => exact .computed
  | entered h => exact .called h.room
  | got | put => exact .back
  | result => exact .finish

/-! ### Work -/

/-- How deep calls may still be nested, and how long code is. -/
abbrev Weight := ℕ ×ₗ ℕ

noncomputable def Task.weight (limit : Nat) : Task → Weight
  | .run code calls => toLex (limit - calls.depth, 3 * sizeOf code)
  | .await _ want calls => toLex (limit - calls.depth, want.weight)

noncomputable def Cell.load (limit : Nat) : Cell → Multiset Weight
  | .waiting body _ calls => {toLex (limit - calls.depth, 3 * sizeOf body + 1)}
  | .done _ => 0

noncomputable def tasksLoad (limit : Nat) (ts : List Task) : Multiset Weight :=
  (ts.map (Task.weight limit) : List Weight)

noncomputable def cellsLoad (limit : Nat) (cells : Array Cell) (but : List Nat) : Multiset Weight :=
  ∑ c ∈ Finset.range cells.size, if c ∈ but then 0 else cells[c]?.elim 0 (Cell.load limit)

/-- The work before a machine: its tasks, and the cells nobody works at yet. -/
noncomputable def load (ts : List Task) (s : State) : Multiset Weight :=
  tasksLoad s.maxDepth ts + cellsLoad s.maxDepth s.cells (awaited ts)

variable {limit c : Nat} {cells : Array Cell} {but : List Nat} {ts us : List Task} {t : Task} {want want' : Want}
  {s : State}

theorem tasksLoad_cons (t : Task) (ts : List Task) :
    tasksLoad limit (t :: ts) = {t.weight limit} + tasksLoad limit ts :=
  rfl

theorem tasksLoad_append (ts us : List Task) :
    tasksLoad limit (ts ++ us) = tasksLoad limit ts + tasksLoad limit us := by
  simp [tasksLoad]

theorem awaited_append (ts us : List Task) : awaited (ts ++ us) = awaited ts ++ awaited us := by
  induction ts with
  | nil => rfl
  | cons t ts ih => cases t <;> simp [awaited, ih]

theorem awaited_behind (t : Task) : awaited t.behind = [] := by
  cases t <;> rfl

theorem Cut.awaited (h : Cut ts us) : Machine.awaited ts = Machine.awaited us := by
  obtain ⟨xs, rfl, hxs⟩ := h
  have hnone : Machine.awaited xs = [] := by
    induction xs with
    | nil => rfl
    | cons x xs ih =>
      obtain ⟨⟨code, calls, rfl⟩, hrest⟩ := forall_mem_cons.mp hxs
      exact ih hrest
  rw [awaited_append, hnone, nil_append]

theorem Cut.tasksLoad (h : Cut ts us) (limit : Nat) : Machine.tasksLoad limit us ≤ Machine.tasksLoad limit ts := by
  obtain ⟨xs, rfl, -⟩ := h
  rw [tasksLoad_append]
  exact Multiset.le_add_left _ _

theorem Cut.load (h : Cut ts us) (s : State) : Machine.load us s ≤ Machine.load ts s := by
  rw [Machine.load, Machine.load, h.awaited]
  exact add_le_add_left (h.tasksLoad _) _

theorem cellsLoad_done (c : Nat) (v : Object) :
    cellsLoad limit (cells.setIfInBounds c (.done v)) but = cellsLoad limit cells (c :: but) := by
  grind [cellsLoad, Cell.load]

theorem cellsLoad_known {v : Object} (hc : cells[c]? = some (.done v)) :
    cellsLoad limit cells (c :: but) = cellsLoad limit cells but := by
  refine Finset.sum_congr rfl fun i _ => ?_
  grind [Cell.load]

theorem cellsLoad_push (k : Cell) :
    cellsLoad limit (cells.push k) but = cellsLoad limit cells but + if cells.size ∈ but then 0 else k.load limit := by
  grind [cellsLoad, Finset.sum_range_succ, Finset.sum_congr]

theorem cellsLoad_begin {k : Cell} (hc : cells[c]? = some k) (hb : c ∉ but) :
    cellsLoad limit cells but = k.load limit + cellsLoad limit cells (c :: but) := by
  have hmem : c ∈ Finset.range cells.size :=
    Finset.mem_range.mpr (Array.getElem?_eq_some_iff.mp hc).1
  unfold cellsLoad
  rw [← Finset.add_sum_erase _ _ hmem, ← Finset.add_sum_erase _ (fun i => if i ∈ c :: but then _ else _) hmem]
  grind [Finset.sum_congr]

/-! ### Less work -/

theorem lt_of_less {m x y z : Multiset Weight} (hm : m ≤ x + y) (hn : n = x + z) (hz : z ≠ 0)
    (h : ∀ w ∈ y, ∃ v ∈ z, w < v) : m.IsDershowitzMannaLT n := by
  subst hn
  refine ⟨m ∩ x, m - x, x - m ∩ x + z, ?_, ?_, ?_, fun w hw => ?_⟩
  · exact fun hzero => hz (add_eq_zero.mp hzero).2
  · rw [add_comm, Multiset.sub_add_inter]
  · rw [← add_assoc, add_tsub_cancel_of_le Multiset.inter_le_right]
  · have hle : m - x ≤ y := tsub_le_iff_left.mpr hm
    obtain ⟨v, hv, hlt⟩ := h w (Multiset.mem_of_le hle hw)
    exact ⟨v, Multiset.mem_add.mpr (.inr hv), hlt⟩

theorem lt_of_le_less {l m : Multiset Weight} (hl : l ≤ m) (h : m.IsDershowitzMannaLT n) : l.IsDershowitzMannaLT n := by
  obtain ⟨x, y, z, hz, rfl, hn, hyz⟩ := h
  exact lt_of_less hl hn hz hyz

theorem toLex_lt_of_snd (h : b < c) : (toLex (a, b) : Weight) < toLex (a, c) :=
  Prod.Lex.toLex_lt_toLex.mpr (.inr ⟨rfl, h⟩)

theorem toLex_lt_of_fst (h : a < b) : (toLex (a, c) : Weight) < toLex (b, d) :=
  Prod.Lex.toLex_lt_toLex.mpr (.inl h)

theorem sizeOf_suffix {js : List Instruction} (h : is <:+ js) : sizeOf is ≤ sizeOf js := by
  obtain ⟨ks, rfl⟩ := h
  induction ks with
  | nil => exact Nat.le_refl _
  | cons k ks ih =>
    rw [cons_append, List.cons.sizeOf_spec]
    omega

theorem run_lt {is' : List Instruction} (h : is' <:+ is) (calls : Calls) :
    (Task.run is' calls).weight limit < (Task.run (i :: is) calls).weight limit := by
  apply toLex_lt_of_snd
  have hle := sizeOf_suffix h
  rw [List.cons.sizeOf_spec]
  omega

theorem Want.weight_le (want : Want) : want.weight ≤ 2 := by
  cases want <;> simp [weight]

theorem behind_lt (hw : t.want? = some want) : ∀ w ∈ tasksLoad limit t.behind, w < t.weight limit := by
  cases t with
  | await => simp [Task.behind, tasksLoad]
  | run code calls =>
    cases code with
    | nil => cases hw
    | cons i is =>
      simp only [Task.behind, tasksLoad, tail_cons, map_cons, map_nil, Multiset.coe_singleton,
        Multiset.mem_singleton, forall_eq]
      exact run_lt (suffix_refl is) calls

theorem await_lt_run (is : List Instruction) (calls : Calls) (c : Nat) (want : Want) :
    (Task.await c want calls).weight limit < (Task.run (i :: is) calls).weight limit := by
  apply toLex_lt_of_snd
  have hle := want.weight_le
  rw [List.cons.sizeOf_spec]
  omega

/-- To wait in the place of a task is not more work, and less unless the task waited for the same. -/
theorem await_lt (limit : Nat) (hw : t.want? = some want) (h : want' = want ∨ want'.weight < want.weight) (c : Nat) :
    (Task.await c want' t.calls).weight limit < t.weight limit ∨ ∃ d, t = .await d want' t.calls := by
  cases t with
  | run code calls =>
    cases code with
    | nil => cases hw
    | cons i is => exact .inl (await_lt_run is calls c want')
  | await d want₀ calls =>
    cases hw
    obtain rfl | h := h
    · exact .inr ⟨d, rfl⟩
    · exact .inl (toLex_lt_of_snd h)

theorem weight_await (limit : Nat) (ht : t = .await d want t.calls) (c : Nat) :
    t.behind = [] ∧ (Task.await c want t.calls).weight limit = t.weight limit := by
  rw [ht]
  exact ⟨rfl, rfl⟩

theorem called_lt (hw : t.want? = some want) (h : t.calls.depth < limit)
    (is : List Instruction) (f : Frame) : (Task.run is (t.calls.push f)).weight limit < t.weight limit := by
  have hless : limit - (t.calls.push f).depth < limit - t.calls.depth := by
    simp only [Calls.push]
    omega
  cases t with
  | run code calls => exact toLex_lt_of_fst hless
  | await d want₀ calls => exact toLex_lt_of_fst hless

/-- The cells as they are when a task hands its value on make as much work as before. -/
theorem cellsLoad_task (hst : s.stack = o :: stack) :
    cellsLoad limit (t.cells s) (awaited ts) = cellsLoad limit s.cells (awaited (t :: ts)) := by
  cases t with
  | run code calls => rfl
  | await c want calls =>
    have hcells : (Task.await c want calls).cells s = s.cells.setIfInBounds c (.done o) := by
      simp only [Task.cells, hst]
    rw [hcells, cellsLoad_done]
    rfl

section Handing

variable {t : Task} {ts us : List Task} {s u : State} {want : Want} {o : Object} {stack : List Object}
  {xs : List Task}

theorem less_of_le {y : Multiset Weight} (hle : load us u ≤
      tasksLoad s.maxDepth ts + cellsLoad s.maxDepth s.cells (awaited (t :: ts)) + y)
    (hy : ∀ w ∈ y, w < t.weight s.maxDepth) : (load us u).IsDershowitzMannaLT (load (t :: ts) s) := by
  refine lt_of_less hle ?_ (Multiset.singleton_ne_zero _) fun w hw => ⟨_, Multiset.mem_singleton_self _, hy w hw⟩
  rw [load, tasksLoad_cons]
  abel

theorem load_before (hst : s.stack = o :: stack) : load (t :: ts) s =
    tasksLoad s.maxDepth ts + cellsLoad s.maxDepth (t.cells s) (awaited ts) + {t.weight s.maxDepth} := by
  rw [load, tasksLoad_cons, cellsLoad_task hst]
  abel

theorem load_after (hu : u.cells = t.cells s) (hmax : u.maxDepth = s.maxDepth) :
    load (xs ++ (t.behind ++ ts)) u = tasksLoad s.maxDepth ts +
      cellsLoad s.maxDepth (t.cells s) (awaited xs ++ awaited ts) +
      (tasksLoad s.maxDepth xs + tasksLoad s.maxDepth t.behind) := by
  grind [load, tasksLoad_append, awaited_append, awaited_behind]

theorem less_of_tasks (hw : t.want? = some want) (hst : s.stack = o :: stack)
    (hu : u.cells = t.cells s) (hmax : u.maxDepth = s.maxDepth)
    (hsame : cellsLoad s.maxDepth (t.cells s) (awaited xs ++ awaited ts) =
      cellsLoad s.maxDepth (t.cells s) (awaited ts)) (hxs : ∀ w ∈ tasksLoad s.maxDepth xs, w < t.weight s.maxDepth) :
    (load (xs ++ (t.behind ++ ts)) u).IsDershowitzMannaLT (load (t :: ts) s) := by
  refine less_of_le (le_of_eq ?_) fun w hmem => (Multiset.mem_add.mp hmem).elim (hxs w) (behind_lt hw w)
  rw [load_after hu hmax, hsame, cellsLoad_task hst]

theorem less_of_work {body : List Instruction} {captured : List Object} {context : Calls}
    (hw : t.want? = some want) (hst : s.stack = o :: stack) (hu : u.cells = t.cells s)
    (hmax : u.maxDepth = s.maxDepth) (hwant : want' = want ∨ want'.weight < want.weight)
    (hc : (t.cells s)[c]? = some (.waiting body captured context)) (hb : c ∉ awaited ts) :
    (load ([.run body context, .await c want' t.calls] ++ (t.behind ++ ts)) u).IsDershowitzMannaLT
      (load (t :: ts) s) := by
  rw [load_before hst, load_after hu hmax, cellsLoad_begin hc hb]
  have hbody : (Task.run body context).weight s.maxDepth < toLex (s.maxDepth - context.depth, 3 * sizeOf body + 1) :=
    toLex_lt_of_snd (Nat.lt_succ_self _)
  simp only [Cell.load, awaited, cons_append, nil_append, tasksLoad_cons]
  generalize tasksLoad s.maxDepth ts = x, cellsLoad s.maxDepth (t.cells s) (c :: awaited ts) = y
  rw [add_left_comm x, add_comm _ (x + y), add_assoc (x + y)]
  obtain hlt | ⟨d, hd⟩ := await_lt s.maxDepth hw hwant c
  · refine lt_of_less le_rfl rfl (by simp) fun w hmem => ?_
    simp only [Multiset.mem_add, Multiset.mem_singleton] at hmem ⊢
    obtain (rfl | rfl | hnil) | hmem := hmem
    · exact ⟨_, .inl rfl, hbody⟩
    · exact ⟨_, .inr rfl, hlt⟩
    · simp [tasksLoad] at hnil
    · exact ⟨_, .inr rfl, behind_lt hw w hmem⟩
  · -- The waiting stays, so only the cell is exchanged for its code.
    obtain ⟨hbehind, hsame⟩ := weight_await s.maxDepth hd c
    have hnil : tasksLoad s.maxDepth [] = 0 := rfl
    rw [hbehind, hsame, hnil, add_zero, add_zero]
    refine lt_of_less (x := x + y + {t.weight s.maxDepth}) (y := {(Task.run body context).weight s.maxDepth})
      (le_of_eq (by abel)) (by abel) (Multiset.singleton_ne_zero _) fun w hmem => ⟨_, Multiset.mem_singleton_self _, ?_⟩
    rwa [Multiset.mem_singleton.mp hmem]

end Handing

/-- One known lazy value leads to another, and nothing else changes. -/
structure Trails (t : Task) (ts us : List Task) (s u : State) (c : Nat) : Prop where
  waits : ∃ d want calls, t = .await d want calls ∧ us = .await c want calls :: ts ∧
    ∃ o stack, s.stack = o :: stack ∧ cell? o = some c ∧ u.cells = s.cells.setIfInBounds d (.done o)
  known : ∃ v stack, u.cells[c]? = some (.done v) ∧ u.stack = v :: stack
  same : load us u = load (t :: ts) s

theorem load_handed (hno : ¬ Relapse (t :: ts) s) (hmax : u.maxDepth = s.maxDepth) (hw : t.want? = some want)
    (hst : s.stack = o :: stack) (h : Handed t.calls want o { s with cells := t.cells s, stack } m u)
    (hu : u.cells = t.cells s) : (load (m.tasks ++ (t.behind ++ ts)) u).IsDershowitzMannaLT (load (t :: ts) s) ∨
      ∃ c, Trails t ts (m.tasks ++ (t.behind ++ ts)) s u c ∧ ¬ Endless u.cells c := by
  cases h with
  | work hd hwant hc =>
    exact .inl (less_of_work hw hst hu hmax hwant hc fun hb => hno (.inl ⟨_, _, _, _, _, hw, hst ▸ hd, hc, hb⟩))
  | @known c want' v stack' _ hd hwant hc hstack =>
    obtain hlt | ⟨d, ht⟩ := await_lt s.maxDepth hw (hwant.imp_left And.left) c
    · refine .inl (less_of_tasks hw hst hu hmax (cellsLoad_known hc) fun w hmem => ?_)
      simp_all [tasksLoad, Move.tasks]
    · right
      have hcell : cell? o = some c := by
        obtain ⟨-, hcell⟩ | hless := hwant
        · exact hcell
        · rw [ht] at hw
          cases hw
          exact absurd hless (Nat.lt_irrefl _)
      obtain ⟨hbehind, hsame⟩ := weight_await s.maxDepth ht c
      have hcells : t.cells s = s.cells.setIfInBounds d (.done o) := by
        rw [ht]
        simp only [Task.cells, hst]
      refine ⟨c, ⟨⟨d, want', t.calls, ht, by rw [hbehind]; rfl, o, stack, hst, hcell, hu.trans hcells⟩,
        ⟨v, stack', hu ▸ hc, hstack⟩, ?_⟩, fun he => hno (.inr ⟨_, _, hw, hst ▸ hd, hu ▸ he⟩)⟩
      rw [Move.tasks, load_before hst, load_after hu hmax, hbehind, tasksLoad_cons, hsame]
      simp only [awaited, cons_append, nil_append, cellsLoad_known hc]
      simp [tasksLoad]
  | @called is f _ hd =>
    refine .inl (less_of_tasks hw hst hu hmax rfl fun w hmem => ?_)
    have hmem : w ∈ ({(Task.run is (t.calls.push f)).weight s.maxDepth} : Multiset Weight) := hmem
    simp_all [called_lt]
  | computed | back | finish => exact .inl (less_of_tasks hw hst hu hmax rfl nofun)

theorem load_replaced {new : List Task} (h : Replaced s t new u) (hmax : u.maxDepth = s.maxDepth)
    (hcalls : t.calls = s.calls) (hno : ¬ Relapse (t :: ts) s) :
    (load (new ++ ts) u).IsDershowitzMannaLT (load (t :: ts) s) ∨
      ∃ c, Trails t ts (new ++ ts) s u c ∧ ¬ Endless u.cells c := by
  cases h with
  | left hu =>
    refine .inl (less_of_le (y := 0) (le_of_eq ?_) nofun)
    rw [nil_append, load, hmax, hu, add_zero, awaited]
  | @next i is is' _ calls his hu =>
    refine .inl (less_of_le (y := {(Task.run is' calls).weight s.maxDepth}) (le_of_eq ?_) ?_)
    · rw [cons_append, load, hmax, hu, tasksLoad_cons, awaited, awaited, nil_append]
      abel
    · simp_all [run_lt]
  | @suspended n body vs below is calls =>
    obtain rfl : calls = s.calls := hcalls
    refine .inl (less_of_le (y := {(Task.run is s.calls).weight s.maxDepth} +
      (Cell.waiting body vs.reverse s.calls).load s.maxDepth) ?_ fun w hmem => ?_)
    · have hu : (s.suspend body vs below s.calls).cells = s.cells.push (.waiting body vs.reverse s.calls) := rfl
      rw [cons_append, load, hmax, hu, tasksLoad_cons, awaited, awaited, nil_append, cellsLoad_push, add_comm {_},
        add_add_add_comm]
      gcongr
      split
      · exact zero_le
      · exact le_rfl
    · obtain hmem | hmem := Multiset.mem_add.mp hmem
      · simp_all [run_lt]
      · rw [Multiset.mem_singleton.mp hmem]
        apply toLex_lt_of_snd
        grind
  | @supplied _ want o stack u m hw hst h c =>
    have hcells : (t.settles s o).withStack stack = { s with cells := t.cells s, stack } := by
      cases t <;> simp only [Task.settles, Task.cells, hst] <;> rfl
    rw [hcells] at h
    have hu : u.cells = t.cells s := by
      obtain ⟨made, stack', rfl⟩ := h.frame
      rfl
    rw [append_assoc]
    refine load_handed hno hmax hw hst ?_ hu
    rw [hcalls]
    exact handed_of_supplied h c

/-- A step leaves less work, or follows known values, unless it is a relapse. -/
theorem load_step (h : step (t :: ts) s = .ok (.go us) u) (hcalls : t.calls = s.calls) (hno : ¬ Relapse (t :: ts) s) :
    (load us u).IsDershowitzMannaLT (load (t :: ts) s) ∨ ∃ c, Trails t ts us s u c ∧ ¬ Endless u.cells c := by
  have hstep := (yields_step t ts).ok h
  obtain ⟨new, hnew, hcut, -⟩ := hstep.replaced
  obtain hless | ⟨c, htrail, hc⟩ := load_replaced hnew hstep.stays.1 hcalls hno
  · exact .inl (lt_of_le_less (hcut.load u) hless)
  · obtain ⟨xs, hxs, hrun⟩ := hcut
    obtain ⟨_, _, _, -, hus, -⟩ := htrail.waits
    cases xs with
    | nil =>
      rw [hxs] at htrail
      exact .inr ⟨c, htrail, hc⟩
    | cons y xs =>
      obtain ⟨_, _, rfl⟩ := hrun y mem_cons_self
      cases hxs.symm.trans hus

end Parlance.Machine
