import Parlance.Proofs.Workload
/-!
Which runs come to an end: those that ask for lazy values that reach themselves only so many times.
-/
namespace Parlance.Machine

variable {ts us : List Task} {s u : State} {c n : Nat} {want : Want} {base calls : Calls} {v : Object}

def after : Nat → List Task → State → Option (List Task × State)
  | 0, ts, s => some (ts, s)
  | n + 1, ts, s =>
    match step ts s with
    | .ok (.go us) u => after n us u
    | _ => none

def Finishes (ts : List Task) (s : State) : Prop := ∃ n, ∀ u, iterate step n ts s ≠ .error .unfinished u

def Calm (ts : List Task) (s : State) : Prop := ∀ n us u, after n ts s = some (us, u) → ¬ Relapse us u

def Subsides (ts : List Task) (s : State) : Prop :=
  ∃ n, ∀ k us u, n ≤ k → after k ts s = some (us, u) → ¬ Relapse us u

theorem after_succ (h : step ts s = .ok (.go us) u) (n : Nat) : after (n + 1) ts s = after n us u := by
  rw [after, h]

theorem iterate_succ (h : step ts s = .ok (.go us) u) (n : Nat) : iterate step (n + 1) ts s = iterate step n us u := by
  rw [iterate, bind_of_ok (unwinding_ok.mpr h)]

theorem iterate_of_after (h : after n ts s = some (us, u)) :
    iterate step n ts s = .error .unfinished (unwound us u) := by
  induction n generalizing ts s with
  | zero =>
    cases h
    rfl
  | succ n ih => grind [after, iterate_succ]

theorem after_add (n k : Nat) : after (n + k) ts s = (after n ts s).bind fun c => after k c.1 c.2 := by
  induction n generalizing ts s with
  | zero =>
    rw [Nat.zero_add]
    rfl
  | succ n ih => grind [after]

theorem Finishes.of_step (hstep : step ts s = .ok (.go us) u) (h : Finishes us u) : Finishes ts s := by
  obtain ⟨n, hn⟩ := h
  refine ⟨n + 1, ?_⟩
  rw [iterate_succ hstep]
  exact hn

theorem Finishes.of_after (hn : after n ts s = some (us, u)) (h : Finishes us u) : Finishes ts s := by
  induction n generalizing ts s with
  | zero =>
    cases hn
    exact h
  | succ n ih => grind [after, of_step]

theorem Finishes.of_stop (h : ∀ us u, step ts s ≠ .ok (.go us) u) : Finishes ts s := by
  refine ⟨1, fun t ht => ?_⟩
  rw [iterate] at ht
  cases hstep : step ts s with
  | error e v =>
    obtain ⟨x, xs, -, hstuck⟩ := step_error hstep
    rw [bind_of_error (unwinding_error hstep)] at ht
    cases ht
    exact hstuck.frame.1 rfl
  | ok next v =>
    rw [bind_of_ok (unwinding_ok.mpr hstep)] at ht
    cases next with
    | go us => exact h us v hstep
    | finish r => cases ht

theorem Finishes.of_after_none (hn : after n ts s = none) : Finishes ts s := by
  induction n generalizing ts s with
  | zero => cases hn
  | succ n ih => grind [after_succ, of_step, of_stop]

theorem stacked_of_after (hn : after n ts s = some (us, u)) (h : Stacked base s.calls ts) :
    Stacked base u.calls us := by
  induction n generalizing ts s with
  | zero =>
    cases hn
    exact h
  | succ n ih =>
    have hgo {us : List Task} {u : State} (hstep : step ts s = .ok (.go us) u) : Stacked base u.calls us :=
      step_stacked hstep h
    grind [after]

theorem Calm.step (h : Calm ts s) (hstep : step ts s = .ok (.go us) u) : Calm us u := by
  intro n vs v hv
  exact h (n + 1) vs v (by rwa [after_succ hstep])

theorem Calm.now (h : Calm ts s) : ¬ Relapse ts s := h 0 ts s rfl

/-! ### Calm runs end -/

theorem setIfInBounds_self {cells : Array Cell} {k : Cell} (h : cells[c]? = some k) :
    cells.setIfInBounds c k = cells := by grind

/-- Known values are followed until there is no further one, so that less work is left in the end. -/
theorem finishes_of_trail {l : Multiset Weight}
    (ih : ∀ ts s, (load ts s).IsDershowitzMannaLT l → Stacked base s.calls ts → Calm ts s → Finishes ts s)
    {stack : List Object} (hcalls : Stacked base s.calls (.await c want calls :: ts))
    (hload : load (.await c want calls :: ts) s = l)
    (hc : s.cells[c]? = some (.done v)) (hst : s.stack = v :: stack) (hn : follow s.cells n c = none)
    (hcalm : Calm (.await c want calls :: ts) s) : Finishes (.await c want calls :: ts) s := by
  induction n generalizing c s v stack with
  | zero => cases hn
  | succ n ihn =>
    by_cases hgo : ∃ us u, Machine.step (.await c want calls :: ts) s = .ok (.go us) u
    · obtain ⟨us, u, hstep⟩ := hgo
      apply Finishes.of_step hstep
      have hcalls' : Stacked base u.calls us := step_stacked hstep hcalls
      obtain hless | ⟨c', htrail, -⟩ := load_step hstep hcalls.calls_eq hcalm.now
      · exact ih us u (hload ▸ hless) hcalls' (hcalm.step hstep)
      · obtain ⟨d, want', calls', ht, rfl, o, stack', ho, hcell, hcells⟩ := htrail.waits
        obtain ⟨v', stack'', hv', hst'⟩ := htrail.known
        cases ht
        obtain ⟨rfl, -⟩ := List.cons.inj (hst.symm.trans ho)
        rw [setIfInBounds_self hc] at hcells
        have hnext : next? s.cells c = some c' := by simp [next?, hc, hcell]
        rw [follow, hnext, Option.bind_some, ← hcells] at hn
        exact ihn hcalls' (htrail.same.trans hload) hv' hst' hn (hcalm.step hstep)
    · exact .of_stop fun us u hstep => hgo ⟨us, u, hstep⟩

theorem finishes_of_calm (hcalls : Stacked base s.calls ts) (h : Calm ts s) : Finishes ts s := by
  have hall : ∀ l ts s, load ts s = l → Stacked base s.calls ts → Calm ts s → Finishes ts s := by
    intro l
    refine (Multiset.wellFounded_isDershowitzMannaLT (α := Weight)).induction
      (C := fun l => ∀ ts s, load ts s = l → Stacked base s.calls ts → Calm ts s → Finishes ts s) l
      fun l ih ts s hload hcalls hcalm => ?_
    have hless (ts : List Task) (s : State) (hlt : (load ts s).IsDershowitzMannaLT l)
        (hcalls : Stacked base s.calls ts) (hc : Calm ts s) : Finishes ts s :=
      ih _ hlt ts s rfl hcalls hc
    by_cases hgo : ∃ us u, Machine.step ts s = .ok (.go us) u
    · obtain ⟨us, u, hstep⟩ := hgo
      apply Finishes.of_step hstep
      have hcalls' : Stacked base u.calls us := step_stacked hstep hcalls
      cases ts with
      | nil => cases hstep
      | cons t ts =>
        obtain hlt | ⟨c, htrail, hends⟩ := load_step hstep hcalls.calls_eq hcalm.now
        · exact hless us u (hload ▸ hlt) hcalls' (hcalm.step hstep)
        · obtain ⟨d, want, calls, rfl, rfl, -⟩ := htrail.waits
          obtain ⟨v, stack, hv, hst⟩ := htrail.known
          obtain ⟨n, hn⟩ : ∃ n, follow u.cells n c = none := by
            by_contra hnone
            exact hends fun n => Option.isSome_iff_ne_none.mpr fun hn => hnone ⟨n, hn⟩
          exact finishes_of_trail hless hcalls' (htrail.same.trans hload) hv hst hn (hcalm.step hstep)
    · exact .of_stop fun us u hstep => hgo ⟨us, u, hstep⟩
  exact hall _ ts s rfl hcalls h

/-- A run comes to an end if and only if it relapses so many times and no more. -/
theorem finishes_iff_subsides (hcalls : Stacked base s.calls ts) : Finishes ts s ↔ Subsides ts s := by
  constructor
  · rintro ⟨n, hn⟩
    refine ⟨n, fun k us u hk hafter => ?_⟩
    obtain ⟨j, rfl⟩ := Nat.exists_eq_add_of_le hk
    rw [after_add] at hafter
    obtain ⟨c, hc, -⟩ := Option.bind_eq_some_iff.mp hafter
    exact absurd (iterate_of_after hc) (hn _)
  · rintro ⟨n, hn⟩
    cases hafter : after n ts s with
    | none => exact .of_after_none hafter
    | some c =>
      apply Finishes.of_after hafter
      apply finishes_of_calm (stacked_of_after hafter hcalls)
      intro k us u hk
      apply hn (n + k) us u (Nat.le_add_right n k)
      rw [after_add, hafter]
      exact hk

/-! ### Rings -/

theorem supply_known {o : Object} (ho : cell? o = some c) (hc : s.cells[c]? = some (.done v)) :
    supply want o calls s = .ok (.ahead [.await c want calls]) (s.withStack (v :: s.stack)) := by
  have hforce (forced : Step Move) :
      force o want calls forced s = .ok (.ahead [.await c want calls]) (s.withStack (v :: s.stack)) := by
    simp only [force, cell?_eq_some.mp ho]
    rw [get_bind, hc]
    rfl
  cases want <;> exact hforce _

theorem require_known (calls : Calls) (hd : demand? want s.stack = some c)
    (hc : s.cells[c]? = some (.done v)) : ∃ want' stack,
      require want calls s = .ok (.ahead [.await c want' calls]) (s.withStack (v :: stack)) := by
  cases hst : s.stack with
  | nil =>
    rw [hst] at hd
    cases want <;> cases hd
  | cons o stack =>
    have hrequire : require want calls s = supply want o calls (s.withStack stack) :=
      bind_of_ok (pop_cons calls hst)
    rw [hrequire]
    rw [hst] at hd
    cases ho : cell? o with
    | some d =>
      rw [demand?_lazy ho] at hd
      cases hd
      exact ⟨want, stack, supply_known ho hc⟩
    | none =>
      cases want with
      | receiver n =>
        cases stack with
        | nil => simp [demand?, ho] at hd
        | cons p below =>
          have hp : cell? p = some c := by simpa [demand?, ho] using hd
          have hsupply : supply (.receiver n) o calls (s.withStack (p :: below)) =
              supply (.operand n o) p calls (s.withStack below) := by
            show force o (.receiver n) calls (pop calls >>= fun p => supplyOperand n o p calls) _ = _
            rw [force_plain ho]
            exact bind_of_ok (pop_cons (s := s.withStack (p :: below)) calls rfl)
          exact ⟨.operand n o, below, hsupply.trans (supply_known hp hc)⟩
      | _ => simp [demand?, ho] at hd

theorem Endless.known {cells : Array Cell} {c : Nat} (h : Endless cells c) :
    ∃ v d, cells[c]? = some (.done v) ∧ cell? v = some d ∧ Endless cells d := by
  have hone := h 1
  have hnext (d : Nat) (hd : next? cells c = some d) : Endless cells d := by
    intro n
    have hn := h (n + 1)
    rwa [follow, hd, Option.bind_some] at hn
  grind [next?, follow, cell?]

/-- Whatever waits for one of a ring comes to wait for the next. -/
theorem round_await (stack : List Object) (hc : s.cells[c]? = some (.done v)) (he : Endless s.cells c) :
    Round (.await c want calls :: ts) (s.withStack (v :: stack)) := by
  obtain ⟨v', d, hv', hd, hend⟩ := he.known
  obtain rfl : v = v' := by
    rw [hc] at hv'
    cases hv'
    rfl
  refine ⟨want, d, rfl, demand?_lazy hd want stack, ?_⟩
  show Endless (s.cells.setIfInBounds c (.done v)) d
  rwa [setIfInBounds_self hc]

theorem Round.step (h : Round ts s) : ∃ us u, step ts s = .ok (.go us) u ∧ Round us u := by
  cases ts with
  | nil => exact h.elim
  | cons t ts =>
    obtain ⟨want, c, hw, hd, he⟩ := h
    obtain ⟨v, -, hc, -⟩ := he.known
    cases t with
    | await d want₀ calls =>
      cases hw
      cases hst : s.stack with
      | nil =>
        rw [hst] at hd
        cases want <;> cases hd
      | cons o stack =>
        have hcells : (Task.await d want calls).cells s = (s.settled d o).cells := by
          simp only [Task.cells, hst]
          rfl
        rw [hcells] at hc he
        obtain ⟨want', stack', hrequire⟩ := require_known (s := s.settled d o) s.calls hd hc
        refine ⟨.await c want' s.calls :: ts, _, ?_, round_await stack' hc he⟩
        show (settle d want s.calls >>= Move.onto ts) s = _
        rw [bind_of_ok ((settle_cons hst).trans hrequire)]
        rfl
    | run code calls =>
      obtain ⟨want', stack', hrequire⟩ := require_known s.calls hd hc
      cases code with
      | nil => cases hw
      | cons i is =>
        refine ⟨.await c want' s.calls :: .run is calls :: ts, _, ?_, round_await stack' hc he⟩
        have hstep : (require want s.calls >>= Move.onto (.run is calls :: ts)) s =
            .ok (.go (.await c want' s.calls :: .run is calls :: ts)) (s.withStack (v :: stack')) := by
          rw [bind_of_ok hrequire]
          rfl
        cases i with
        | panic | callMethod | callNative =>
          cases hw
          exact hstep
        | _ => cases hw

theorem Round.after (h : Round ts s) (n : Nat) : ∃ us u, after n ts s = some (us, u) ∧ Round us u := by
  induction n generalizing ts s with
  | zero => exact ⟨ts, s, rfl, h⟩
  | succ n ih =>
    obtain ⟨us, u, hstep, hround⟩ := h.step
    rw [after_succ hstep]
    exact ih hround

/-- Once one of a ring is asked for there is no end to it. -/
theorem not_subsides_of_round {k : Nat} (hk : after k ts s = some (us, u)) (h : Round us u) : ¬ Subsides ts s := by
  rintro ⟨n, hn⟩
  obtain ⟨vs, v, hv, hround⟩ := h.after n
  refine hn (k + n) vs v (Nat.le_add_left n k) ?_ (.inr hround)
  rw [after_add, hk]
  exact hv

/-! ### Evaluation -/

def evalWithin (n : Nat) (code : List Instruction) : Step Unit := do
  modify fun s => { s with halted := false }
  let calls := (← get).calls
  let _ ← report (iterate step n [.run code calls])

def popWithin (n : Nat) : Step (Option Object) :=
  report do
    match ← (require .result (← get).calls >>= Move.onto []) with
    | .go tasks => iterate step n tasks
    | .finish result => return result

theorem report_unfinished {α : Type} {x : Step α} {s u : State} :
    report x s = .error .unfinished u ↔ x s = .error .unfinished u := by grind [report]

theorem evalWithin_unfinished {code : List Instruction} : evalWithin n code s = .error .unfinished u ↔
      iterate step n [.run code s.calls] { s with halted := false } = .error .unfinished u := by
  have he : evalWithin n code s =
      (report (iterate step n [.run code s.calls]) >>= fun _ => pure ()) { s with halted := false } := rfl
  rw [he, bind_error, report_unfinished]
  constructor
  · rintro (h | ⟨a, t, -, h⟩)
    · exact h
    · cases h
  · exact .inl

theorem popWithin_unfinished : popWithin n s = .error .unfinished u ↔
    ∃ ts t, (require .result s.calls >>= Move.onto []) s = .ok (.go ts) t ∧
      iterate step n ts t = .error .unfinished u := by
  unfold popWithin
  rw [report_unfinished, get_bind, bind_error]
  constructor
  · rintro (h | ⟨next, t, hnext, h⟩)
    · obtain h | ⟨m, v, -, h⟩ := bind_error.mp h
      · obtain ⟨-, he, -⟩ | ⟨o, stack, -, h⟩ := (yields_require .result).error h
        · cases he
        · exact absurd rfl h.frame.1
      · rw [onto_eq] at h
        cases h
    · cases next with
      | go ts => exact ⟨ts, t, hnext, h⟩
      | finish r => cases h
  · grind

theorem stacked_of_required (h : (require .result s.calls >>= Move.onto []) s = .ok (.go ts) u) :
    Stacked s.calls u.calls ts := by
  obtain ⟨m, t, hm, ho⟩ := bind_ok.mp h
  obtain ⟨o, stack, -, hsup⟩ := (yields_require .result).ok hm
  rw [onto_eq] at ho
  have hstacked : (m.next t.halted []).Stacked s.calls (m.nextCalls t.halted [] t.calls) :=
    hsup.stacked rfl (.inl ⟨rfl, rfl, rfl⟩) _
  injection ho with hnext hu
  rw [hnext] at hstacked
  subst hu
  exact hstacked

/-- Code of any kind, at any limit and in any state, runs to its end, and so does the working out of a
value, if and only if lazy values that reach themselves are asked for only so many times. Where one is
asked for that is known to lead back to itself, there is no end. -/
theorem eval_finishes_iff (s : State) (code : List Instruction) :
    eval code = evalWithin patience code ∧ evalPop = popWithin patience ∧
    ((∃ n, ∀ u, evalWithin n code s ≠ .error .unfinished u) ↔
      Subsides [.run code s.calls] { s with halted := false }) ∧
    ((∃ n, ∀ u, popWithin n s ≠ .error .unfinished u) ↔
      ∀ ts t, (require .result s.calls >>= Move.onto []) s = .ok (.go ts) t → Subsides ts t) ∧
    ∀ ts t k us u, after k ts t = some (us, u) → Round us u → ¬ Subsides ts t := by
  refine ⟨rfl, rfl, ?_, ?_, fun ts t k us u => not_subsides_of_round⟩
  · refine Iff.trans ?_ (finishes_iff_subsides (.bottom code))
    simp only [ne_eq, evalWithin_unfinished]
    rfl
  · constructor
    · rintro ⟨n, hn⟩ ts t hgo
      rw [← finishes_iff_subsides (stacked_of_required hgo)]
      exact ⟨n, fun u hu => hn u (popWithin_unfinished.mpr ⟨ts, t, hgo, hu⟩)⟩
    · intro h
      by_cases hgo : ∃ ts t, (require .result s.calls >>= Move.onto []) s = .ok (.go ts) t
      · obtain ⟨ts, t, hgo⟩ := hgo
        obtain ⟨n, hn⟩ := (finishes_iff_subsides (stacked_of_required hgo)).mpr (h ts t hgo)
        refine ⟨n, fun u hu => ?_⟩
        obtain ⟨ts', t', hgo', hu⟩ := popWithin_unfinished.mp hu
        rw [hgo] at hgo'
        cases hgo'
        exact hn u hu
      · refine ⟨0, fun u hu => ?_⟩
        obtain ⟨ts, t, hgo', -⟩ := popWithin_unfinished.mp hu
        exact hgo ⟨ts, t, hgo'⟩

def selfish : List Instruction := [.loadLazy 0 [.loadGlobal 1], .storeGlobal 1, .loadGlobal 1]

def selfishState : State :=
  { State.fresh 10 with
    globals := [(1, .mk 0 none (.lazy 0) [])]
    stack := [.mk 0 none (.lazy 0) []]
    cells := #[.waiting [.loadGlobal 1] [] .none]
    made := 1 }

/-- Its value is worked at without end, at a limit of ten calls and without a single one. -/
theorem eval_finishes_iff_selfish : eval selfish (.fresh 10) = .ok () selfishState ∧
    ∀ n, ∃ u, popWithin n selfishState = .error .unfinished u := by
  refine ⟨rfl, ?_⟩
  obtain ⟨-, -, -, hpop, hround⟩ := eval_finishes_iff selfishState []
  by_contra hnot
  push Not at hnot
  have hring : Endless #[.done (.mk 0 none (.lazy 0) [])] 0 := by
    intro n
    induction n with
    | zero => rfl
    | succ n ih => exact ih
  -- After two steps the value of the cell is known, and it is the cell itself.
  have hasks : Round [.await 0 .result .none] { selfishState with stack := [.mk 0 none (.lazy 0) []] } :=
    ⟨.result, 0, rfl, rfl, hring⟩
  exact hround _ _ 2 _ _ rfl hasks (hpop.mp hnot _ _ rfl)

end Parlance.Machine
