import Parlance.Proofs.Halting
import Parlance.Proofs.StackHeights
/-!
What one step does to the task on top of a machine that is not halted. The tasks below stay as they are.
-/
namespace Parlance.Machine

open List

variable {calls : Calls} {s t u : State} {code : List Instruction} {new rest ts us xs : List Task} {x : Task}
  {hash : UInt64} {name : Bytes} {vs ys : List Task} {code' : List Instruction} {calls' : Calls}

/-- What comes into the place of a task, and the state with it. -/
inductive Replaced (s : State) : Task → List Task → State → Prop where
  | left {code : List Instruction} {calls : Calls} {t : State} (ht : t.cells = s.cells) :
    Replaced s (.run code calls) [] t
  | next {i is is'} {t : State} (calls : Calls) (his : is' <:+ is) (ht : t.cells = s.cells) :
    Replaced s (.run (i :: is) calls) [.run is' calls] t
  | suspended {n : UInt16} {body vs below} (is : List Instruction) (calls : Calls) (hst : s.stack = vs ++ below)
    (hn : vs.length = n.toNat) :
    Replaced s (.run (.loadLazy n body :: is) calls) [.run is calls] (s.suspend body vs below s.calls)
  | supplied {x : Task} {want o stack t m} (hw : x.want? = some want) (hst : s.stack = o :: stack)
    (h : Supplied s.calls want o ((x.settles s o).withStack stack) m t) {c : Calls}
    (hc : ∀ y ∈ m.tasks.head?, c = y.calls) :
    Replaced s x (m.tasks ++ x.behind) (t.withCalls c)

theorem Performed.cells {i : Instruction} (h : Performed calls s i t) :
    t.cells = s.cells ∨ ∃ n body vs below, i = .loadLazy n body ∧ s.stack = vs ++ below ∧ vs.length = n.toNat ∧
      t = s.suspend body vs below calls := by
  cases h with
  | suspended hst hn => exact .inr ⟨_, _, _, _, rfl, hst, hn, rfl⟩
  | _ => exact .inl rfl

theorem Defined.suffix {rest : List Instruction} (h : Defined s hash name code rest t) : rest <:+ code := by
  obtain ⟨i, hi⟩ := h.ends
  grind [suffix_cons, dropWhile_suffix]

theorem Defined.cells {rest : List Instruction} (h : Defined s hash name code rest t) : t.cells = s.cells := by
  obtain ⟨-, c, k, -, -, rfl⟩ := h
  rfl

/-- What is left of the tasks when those on top that run code are dropped. -/
def Cut (ts us : List Task) : Prop := ∃ xs, ts = xs ++ us ∧ ∀ x ∈ xs, ∃ code calls, x = .run code calls

theorem left_inv {b : Bool} (h : left b ts = .go us) : Cut ts us ∧ (b = false → us = ts) := by
  have hsame (ts : List Task) : Cut ts ts ∧ (b = false → ts = ts) := ⟨⟨[], rfl, nofun⟩, fun _ => rfl⟩
  induction ts with
  | nil => cases h
  | cons t ts ih =>
    cases t with
    | await =>
      cases h
      exact hsame _
    | run code calls =>
      rw [left] at h
      split at h
      · obtain ⟨⟨xs, rfl, hxs⟩, -⟩ := ih h
        exact ⟨⟨.run code calls :: xs, rfl, forall_mem_cons.mpr ⟨⟨code, calls, rfl⟩, hxs⟩⟩, by simp_all⟩
      · cases h
        exact hsame _

theorem Stepped.replaced (h : Stepped s x ts (.go us) t) :
    ∃ new, Replaced s x new t ∧ Cut (new ++ ts) us ∧ (t.halted = false → us = new ++ ts) := by
  generalize hnext : Next.go us = next at h
  cases h with
  | ended | halted | returned => exact ⟨[], .left rfl, left_inv hnext.symm⟩
  | defined h =>
    cases hnext
    exact ⟨[_], .next _ h.suffix h.cells, ⟨[], rfl, nofun⟩, fun _ => rfl⟩
  | @performed _ is calls _ _ _ h =>
    cases hnext
    refine ⟨[.run is calls], ?_, ⟨[], rfl, nofun⟩, fun _ => rfl⟩
    obtain hcells | ⟨n, body, vs, below, rfl, hst, hn, rfl⟩ := h.cells
    · exact .next calls (suffix_refl is) hcells
    · exact .suspended is calls hst hn
  | @supplied _ _ _ _ _ m t hw hst h =>
    have hcalls : ∀ y ∈ m.tasks.head?, m.nextCalls t.halted (x.behind ++ ts) t.calls = y.calls := by
      obtain (_ | ⟨y, ys⟩) | - | r := m <;> rintro _ ⟨⟩
      rfl
    refine ⟨m.tasks ++ x.behind, .supplied hw hst h hcalls, ?_⟩
    rw [append_assoc]
    cases m with
    | ahead xs =>
      cases hnext
      exact ⟨⟨[], rfl, nofun⟩, fun _ => rfl⟩
    | back => exact left_inv hnext.symm
    | finish r => cases hnext

theorem step_inv (ht : t.halted = false)
    (hstep : step (x :: ts) s = .ok (.go us) t) : ∃ new, us = new ++ ts ∧ Replaced s x new t := by
  obtain ⟨new, h, -, hus⟩ := ((yields_step x ts).ok hstep).replaced
  exact ⟨new, hus ht, h⟩

theorem Replaced.run (h : Replaced s (.run code calls) new u) :
    new = [] ∨ ∃ ms i is is', code = i :: is ∧ is' <:+ is ∧ new = ms ++ [.run is' calls] := by
  generalize ht : Task.run code calls = t at h
  cases h with
  | left => exact .inl rfl
  | next calls his hu =>
    cases ht
    exact .inr ⟨[], _, _, _, rfl, his, rfl⟩
  | suspended is calls hst hn =>
    cases ht
    exact .inr ⟨[], _, _, _, rfl, suffix_refl _, rfl⟩
  | @supplied _ _ _ _ _ m hw hst h =>
    subst ht
    cases code with
    | nil => cases hw
    | cons i is => exact .inr ⟨m.tasks, i, is, is, rfl, suffix_refl _, rfl⟩

/-- A cell that is waiting after a step was so before, or has just been made. -/
theorem Replaced.waiting (h : Replaced s x new t) {cell : Nat}
    {body : List Instruction} {captured : List Object} {context : Calls}
    (hc : t.cells[cell]? = some (.waiting body captured context)) :
    s.cells[cell]? = some (.waiting body captured context) ∨
      ∃ n is own vs below, x = .run (.loadLazy n body :: is) own ∧ context = s.calls ∧ s.stack = vs ++ below ∧
        vs.length = n.toNat ∧ captured = vs.reverse ∧ cell = s.cells.size := by
  cases h with
  | left hu | next _ _ hu =>
    rw [hu] at hc
    exact .inl hc
  | @suspended n body' vs below is calls hst hn =>
    rcases State.cell_suspend hc with ⟨hsize, heq⟩ | hc
    · cases heq
      exact .inr ⟨n, is, calls, vs, below, rfl, rfl, hst, hn, rfl, hsize⟩
    · exact .inl hc
  | @supplied _ _ o _ _ _ hw hst h =>
    obtain ⟨made, stack, rfl⟩ := h.frame
    have hc : (x.settles s o).cells[cell]? = _ := hc
    cases x with
    | run => exact .inl hc
    | await settled => exact .inl ((State.cell_settled hc).resolve_left nofun)

/-- The code that comes with a step is what is left of the code that was there, or comes from handing a
value on. -/
theorem Replaced.run_mem {bs : List Task} (h : Replaced s x new t) (hnew : new = xs ++ .run code calls :: bs) :
    (∃ code', x = .run code' calls ∧ bs = []) ∨
      ∃ want o stack m u c ms, x.want? = some want ∧ s.stack = o :: stack ∧
        Supplied s.calls want o ((x.settles s o).withStack stack) m u ∧ t = u.withCalls c ∧
        (∀ y ∈ m.tasks.head?, c = y.calls) ∧ m.tasks = xs ++ .run code calls :: ms ∧ bs = ms ++ x.behind := by
  cases h with
  | left => simp at hnew
  | next | suspended =>
    obtain ⟨rfl, hx⟩ := append_eq_singleton_iff.mp hnew.symm |>.resolve_right (by simp)
    cases hx
    exact .inl ⟨_, rfl, rfl⟩
  | @supplied _ want o stack _ m hw hst h =>
    rcases append_eq_append_iff.mp hnew with ⟨as, rfl, hbehind⟩ | ⟨as, hm, hrun⟩
    · cases x with
      | await => simp [Task.behind] at hbehind
      | run code' calls' =>
        obtain ⟨rfl, hx⟩ := append_eq_singleton_iff.mp hbehind.symm |>.resolve_right (by simp)
        cases hx
        exact .inl ⟨_, rfl, rfl⟩
    · cases as with
      | nil =>
        cases x with
        | await => simp [Task.behind] at hrun
        | run code' calls' =>
          cases hrun
          exact .inl ⟨_, rfl, rfl⟩
      | cons a as => grind

/-! ### Calls -/

/-- Tasks with the calls at work, which are those of the first. Lowest is code, or what waits for the result, with
the calls from before; what waits for another value has the calls of the code below it. -/
inductive Stacked (base : Calls) : Calls → List Task → Prop where
  | bottom (code : List Instruction) : Stacked base base [.run code base]
  | result (cell : Nat) : Stacked base base [.await cell .result base]
  | run (code : List Instruction) (calls : Calls) {below : Calls} {ts : List Task} (h : Stacked base below ts) :
    Stacked base calls (.run code calls :: ts)
  | await (cell : Nat) {want : Want} {calls : Calls} {ts : List Task} (hw : want ≠ .result)
    (h : Stacked base calls ts) : Stacked base calls (.await cell want calls :: ts)

/-- When a run is over the calls from before are at work. -/
def Next.Stacked (base calls : Calls) : Next → Prop
  | .go ts => Machine.Stacked base calls ts
  | .finish _ => calls = base

section

variable {base c : Calls} {want : Want} {o : Object} {m : Move} {next : Next}

theorem Stacked.calls_eq (h : Stacked base c (x :: ts)) : x.calls = c := by
  cases h <;> rfl

theorem Stacked.getLast? (h : Stacked base c ts) : ts.getLast?.map Task.calls = some base := by
  induction h with
  | bottom | result => rfl
  | run _ _ _ ih | await _ _ _ ih =>
    rw [getLast?_cons]
    obtain ⟨y, hy, hbase⟩ := Option.map_eq_some_iff.mp ih
    rw [hy]
    exact congrArg some hbase

theorem Stacked.left (h : Stacked base c ts) (b : Bool) (c' : Calls) :
    (left b ts).Stacked base (leftCalls b c' ts) := by
  induction h generalizing c' with
  | bottom code => cases b with
    | false => exact .bottom code
    | true => exact Eq.refl base
  | result cell => exact .result cell
  | run code calls h ih => cases b with
    | false => exact .run code calls h
    | true => exact ih calls
  | await cell hw h => exact .await cell hw h

theorem Stacked.over (h : Stacked base c (.run code c :: ts)) (code' : List Instruction) :
    Stacked base c (.run code' c :: ts) := by
  cases h with
  | bottom => exact .bottom code'
  | run _ _ h => exact .run code' c h

/-- What stands behind a task that waits for a value, with the calls at work there. -/
def Behind (base c : Calls) (want : Want) (ts : List Task) : Prop :=
  want = .result ∧ ts = [] ∧ c = base ∨ want ≠ .result ∧ Stacked base c ts

theorem Stacked.behind (h : Stacked base c (x :: ts)) (hw : x.want? = some want) :
    Behind base c want (x.behind ++ ts) := by
  cases x with
  | run code calls =>
    cases h.calls_eq
    refine .inr ⟨?_, h.over code.tail⟩
    cases code with
    | nil => cases hw
    | cons i is => cases i <;> cases hw <;> exact nofun
  | await cell want calls =>
    cases hw
    cases h with
    | result => exact .inl ⟨rfl, rfl, rfl⟩
    | await _ hw h => exact .inr ⟨hw, h⟩

theorem Behind.await (h : Behind base c want ts) (cell : Nat) : Stacked base c (.await cell want c :: ts) := by
  obtain ⟨rfl, rfl, rfl⟩ | ⟨hw, h⟩ := h
  · exact .result cell
  · exact .await cell hw h

theorem Supplied.stacked (h : Supplied c want o s m t) (hs : s.calls = c) (hts : Behind base c want ts) (b : Bool) :
    (m.next b ts).Stacked base (m.nextCalls b ts t.calls) := by
  have hother (hw : want ≠ .result) : Stacked base c ts := by
    obtain ⟨hresult, -⟩ | ⟨-, h⟩ := hts
    · exact absurd hresult hw
    · exact h
  induction h with
  | @work _ _ _ cell body => exact .run body _ (hts.await cell)
  | @known _ _ _ _ cell => exact hts.await cell
  | operand _ _ _ ih => exact ih hs (.inr ⟨nofun, hother nofun⟩) fun _ => hother nofun
  | computed => exact hs ▸ hother nofun
  | @entered _ _ _ _ _ _ _ _ is => exact .run is _ (hother nofun)
  | got | put => exact (hother nofun).left b _
  | result =>
    obtain ⟨-, -, rfl⟩ | ⟨hw, -⟩ := hts
    · exact hs
    · exact absurd rfl hw

/-- A step keeps the tasks stacked: the calls at work are those of the task that is first then. -/
theorem Stepped.stacked (h : Stepped s x ts next t) (hx : Stacked base s.calls (x :: ts)) :
    next.Stacked base t.calls := by
  have hleave {code : List Instruction} {calls : Calls} (hx : Stacked base s.calls (.run code calls :: ts)) (b : Bool) :
      (Machine.left b ts).Stacked base (leftCalls b s.calls ts) := by
    cases hx with
    | bottom => rfl
    | run _ _ h => exact h.left b _
  cases h with
  | ended | halted | returned => exact hleave hx _
  | defined h =>
    obtain ⟨-, c, k, -, -, rfl⟩ := h
    cases hx.calls_eq
    exact hx.over _
  | performed _ h =>
    cases hx.calls_eq
    have hcalls : t.calls = s.calls := by cases h <;> rfl
    exact hcalls ▸ hx.over _
  | @supplied _ _ want o stack m u hw hst h =>
    have hcalls : ((x.settles s o).withStack stack).calls = s.calls := by cases x <;> rfl
    exact h.stacked hcalls (hx.behind hw) _

theorem step_stacked (h : step ts s = .ok next t) (hts : Stacked base s.calls ts) : next.Stacked base t.calls := by
  obtain ⟨rfl, -⟩ | ⟨x, xs, rfl, hstep⟩ := step_ok h
  · cases hts
  · exact hstep.stacked hts

theorem Reaches.stacked (h : Reaches ts s us t) (hts : Stacked base s.calls ts) : Stacked base t.calls us := by
  induction h with
  | refl => exact hts
  | step _ hstep ih => exact step_stacked hstep ih

end

/-! ### Runs -/

theorem Runs.snoc (h : Runs rest ts s (x :: us) t)
    (hstep : Machine.step (x :: (us ++ rest)) t = .ok (.go (vs ++ rest)) u) : Runs rest ts s vs u := by
  generalize hxs : x :: us = xs at h
  induction h with
  | refl =>
    subst hxs
    exact .step hstep (.refl vs u)
  | step hfirst h ih => exact .step hfirst (ih hstep hxs)

theorem Runs.halted (h : Runs rest ts s us t) (hs : s.halted) : t.halted := by
  induction h with
  | refl => exact hs
  | step hstep h ih => exact ih (step_halted hs hstep)

theorem Reaches.runs (h : Reaches ts s (xs ++ rest) t) (hr : Runs rest xs t ys u) : Reaches ts s (ys ++ rest) u := by
  induction hr with
  | refl => exact h
  | step hstep hr ih => exact ih (h.step hstep)

theorem Reaches.trans (h : Reaches ts s us t) (hr : Runs [] us t vs u) : Reaches ts s vs u := by
  rw [← append_nil us] at h
  rw [← append_nil vs]
  exact h.runs hr

theorem Reaches.runs_nil (h : Reaches ts s us t) : Runs [] ts s us t := by
  induction h with
  | refl => exact .refl ts s
  | @step us vs t u h hstep ih =>
    cases us with
    | nil => cases hstep
    | cons x us =>
      refine ih.snoc ?_
      rw [append_nil, append_nil]
      exact hstep

theorem Runs.bottom (h : Runs rest (xs ++ [.run code calls]) s (ys ++ [.run code' calls']) t) (ht : t.halted = false) :
    calls' = calls ∧ code' <:+ code ∧ (xs = [] → code' = code → t = s) := by
  generalize hts : xs ++ [.run code calls] = ts at h
  generalize hus : ys ++ [.run code' calls'] = us at h
  induction h generalizing xs code with
  | refl => grind [append_inj']
  | @step x ts us vs s u w hstep h ih =>
    have hu : u.halted = false := by
      cases hh : u.halted with
      | false => rfl
      | true =>
        rw [h.halted hh] at ht
        cases ht
    obtain ⟨new, hnew, hstepped⟩ := step_inv hu hstep
    rw [← append_assoc] at hnew
    obtain rfl := append_cancel_right hnew
    cases xs with
    | cons y xs => grind
    | nil =>
      obtain ⟨rfl, rfl⟩ := List.cons.inj hts
      rw [append_nil] at ih h
      rcases hstepped.run with rfl | ⟨ms, i, is, is', rfl, his, rfl⟩
      · cases h
        simp at hus
      · grind [length_cons]

theorem Runs.suffix
    (h : Runs rest [.run code calls] s [.run code' calls'] t) (ht : t.halted = false) : code' <:+ code :=
  (show Runs rest ([] ++ [.run code calls]) s ([] ++ [.run code' calls']) t from h).bottom ht |>.2.1

theorem Runs.eq_of_same (h : Runs rest [.run code calls] s [.run code calls] t) (ht : t.halted = false) : t = s :=
  (show Runs rest ([] ++ [.run code calls]) s ([] ++ [.run code calls]) t from h).bottom ht |>.2.2 rfl rfl

theorem Running.wanted {C : Contract} {t : Task}
    (h : Running C calls (t :: ts) s) {want : Want} (hw : t.want? = some want) :
    ∃ K o stack, s.stack = o :: stack ∧ Wanted C K want stack := by
  obtain ⟨xs, code, hts, hs, hsafe⟩ := h
  cases xs with
  | nil =>
    obtain ⟨rfl, rfl⟩ := List.cons.inj hts
    have htop : Top C s.stack.length code := hsafe
    generalize hh : s.stack.length = h at htop
    cases htop with
    | next hi his => exact ⟨_, hi.wanted (append_nil _).symm hh _ _ hw⟩
    | @declare i is _ hi => cases i <;> cases hi <;> cases hw
    | _ => cases hw
  | cons x xs =>
    obtain ⟨rfl, rfl⟩ := List.cons.inj hts
    cases t with
    | await cell want calls =>
      cases hw
      obtain ⟨v, below, hst, hwanted⟩ := hsafe
      exact ⟨_, v, below, hst, hwanted⟩
    | run code calls =>
      obtain ⟨vs, below, hst, he, -⟩ := hsafe
      generalize hh : vs.length = h at he
      cases he with
      | next hi his => exact ⟨_, hi.wanted hst hh _ _ hw⟩
      | _ => cases hw

end Parlance.Machine
