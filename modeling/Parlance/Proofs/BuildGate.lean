import Parlance.Build
import Parlance.Proofs.Inquiries
/-!
What lets a program through to lowering. Errors are overlooked exactly if only the last three checks find any
and the tenth, which finds none, alone reaches the limit.
-/
namespace Parlance

open List

/-! ### Remarks and how grave they are -/

namespace Diagnostic

theorem hasErrors_sort (ds : List Diagnostic) : hasErrors (sort ds) = hasErrors ds := by
  unfold hasErrors sort
  exact (mergeSort_perm ds _).any_eq

theorem limit_pos (max : Int) : 0 < limit max := by grind [limit]

theorem hasErrors_cap_cons {d : Diagnostic} (h : d.isError) (max : Int) (ds : List Diagnostic) :
    hasErrors (cap max (d :: ds)) := by
  obtain ⟨n, hn⟩ : ∃ n, limit max = n + 1 := ⟨limit max - 1, by have := limit_pos max; omega⟩
  grind [cap, hasErrors]

/-- Errors in front are always seen, those behind other remarks only if these leave room. -/
theorem hasErrors_cap {early doubts late : List Diagnostic} (max : Int) (he : AllErrors early)
    (hd : ∀ d ∈ doubts, d.isError = false) (hl : AllErrors late) : hasErrors (cap max (early ++ doubts ++ late)) ↔
      early ≠ [] ∨ late ≠ [] ∧ doubts.length < limit max := by
  cases early with
  | cons e es =>
    simp only [ne_eq, reduceCtorEq, not_false_eq_true, true_or, iff_true]
    exact hasErrors_cap_cons (he e mem_cons_self) max _
  | nil =>
    simp only [ne_eq, not_true_eq_false, false_or, nil_append]
    unfold cap hasErrors
    rw [any_eq_true]
    constructor
    · grind
    · rintro ⟨hne, hroom⟩
      obtain ⟨d, ds, rfl⟩ := exists_cons_of_ne_nil hne
      refine ⟨d, ?_, hl d mem_cons_self⟩
      rw [take_append]
      obtain ⟨n, hn⟩ : ∃ n, limit max - doubts.length = n + 1 := ⟨limit max - doubts.length - 1, by omega⟩
      rw [hn]
      exact mem_append_right _ mem_cons_self

end Diagnostic

theorem Source.allErrors_parse (s : Source) (room : Option Nat) : Diagnostic.AllErrors (s.parse room).remarks := by
  intro d hd
  rw [remarks_parse, mem_reverse] at hd
  exact (s.parse_steady room).1.grave d hd

namespace Check

theorem walk (p : Program) : p.Walk False (@fun α (x : Typing α) Q => ∀ m, Q (x.run m).1) where
  grown := nofun
  pure h _ := h
  bind hx hf m := hf _ (hx m) _
  expression _ _ := nofun
  declaration _ _ := nofun
  typeExpression _ _ := nofun
  standard _ _ := nofun
  behaviours _ _ := nofun
  message _ _ := nofun
  uses _ _ := trivial
  usage _ _ _ := trivial

theorem run_runAll_append (as bs : List Check) (p : Program) (m : Memo) : (runAll (as ++ bs) p).run m =
      (((runAll as p).run m).1 ++ ((runAll bs p).run ((runAll as p).run m).2).1,
        ((runAll bs p).run ((runAll as p).run m).2).2) := by
  unfold runAll
  simp only [mapM_append, bind_assoc, pure_bind, StateT.run_bind, flatten_append]
  rfl

end Check

/-! ### What a build comes to -/

namespace Build

variable {α β : Type}

def Gives (x : Journaling α) (a : α) : Prop := ∀ j, (x.run j).1 = a

theorem Gives.pure (a : α) : Gives (Pure.pure a) a := fun _ => rfl

theorem Gives.bind {x : Journaling α} {f : α → Journaling β} {a : α} {b : β} (hx : Gives x a)
    (hf : Gives (f a) b) : Gives (x >>= f) b := by
  intro j
  show ((f (x.run j).1).run (x.run j).2).1 = b
  rw [hx j]
  exact hf _

theorem Gives.mapM {f : α → Journaling β} {g : α → β} {as : List α} (h : ∀ a ∈ as, Gives (f a) (g a)) :
    Gives (as.mapM f) (as.map g) := by
  induction as with
  | nil => exact .pure []
  | cons a as ih => grind [bind, pure]

theorem gives_unit (x : Journaling Unit) : Gives x () := fun _ => rfl

theorem gives_span {scope : Trace.Scope} {name : String} {parent : Nat} {extra : List (String × String)}
    {detail : α → String} {work : Nat → Journaling α} {a : α} (h : ∀ id, Gives (work id) a) :
    Gives (Journal.span scope name parent extra detail work) a := by
  intro j
  exact h _ _

theorem gives_parseAll (ss : List Source) : Gives (parseAll ss) (ss.map (·.parse none)) :=
  .mapM fun _ _ => (gives_unit _).bind <| (gives_span fun _ => .pure _).bind <| (gives_unit _).bind (.pure _)

/-- All remarks on a program, before any are cut off, and what is remembered after the checks. -/
def examined (ss : List Source) : List Diagnostic × Memo :=
  let docs := ss.map (·.parse none)
  let (found, memo) := (Check.runAll Check.all (.ofDocuments docs)).run (.fresh (.ofDocuments docs))
  (docs.flatMap (·.remarks) ++ found, memo)

def remarks (ss : List Source) : List Diagnostic := (examined ss).1

/-- What a build comes to when nothing is kept: the first remarks, and code unless there are errors
among them or it cannot be lowered. -/
def made (max : Int) (ss : List Source) : Outcome :=
  let p := Program.ofDocuments (ss.map (·.parse none))
  let diagnostics := Diagnostic.sort (Diagnostic.cap max (remarks ss))
  let o : Outcome := ⟨distinct ss, some p, diagnostics, [], [], none, false⟩
  if Diagnostic.hasErrors diagnostics then { o with failure := some .diagnostics }
  else
    let r := Lowering.run (Lowering.whole p) (examined ss).2
    match r.code with
    | .error e => { o with shown := r.shown, failure := some (.lowering e) }
    | .ok code => { o with shown := r.shown, code }

theorem made_failure (max : Int) (ss : List Source) : (made max ss).failure = some .diagnostics ↔
    Diagnostic.hasErrors (Diagnostic.sort (Diagnostic.cap max (remarks ss))) := by
  grind [made]

theorem gives_lower (o : Outcome) (p : Program) (memo : Memo) (root : Nat) :
    Gives (lower o p memo root) (match (Lowering.run (Lowering.whole p) memo).code with
      | .error e => { o with
          shown := (Lowering.run (Lowering.whole p) memo).shown, failure := some (.lowering e) }
      | .ok code => { o with shown := (Lowering.run (Lowering.whole p) memo).shown, code }) := by
  refine (gives_unit _).bind <| (gives_unit _).bind <| (gives_unit _).bind ?_
  cases (Lowering.run (Lowering.whole p) memo).code with
  | error e => exact (gives_unit _).bind (.pure _)
  | ok code => exact (gives_unit _).bind (.pure _)

theorem gives_compile {opts : Options} (hopts : opts.checkOnly = false) (ss : List Source) (root : Nat) :
    Gives (compile opts ss ⟨distinct ss, none, [], [], [], none, false⟩ root) (made opts.max ss) := by
  refine (gives_span fun _ => gives_parseAll ss).bind <| (gives_unit _).bind <| (gives_unit _).bind <|
    (gives_span fun _ => .pure _).bind <| (gives_unit _).bind ?_
  show Gives (if Diagnostic.hasErrors (Diagnostic.sort (Diagnostic.cap opts.max (remarks ss))) = true then _ else _) _
  unfold made
  simp only
  split
  · exact (gives_unit _).bind (.pure _)
  · refine (gives_unit _).bind ?_
    rw [hopts]
    exact gives_lower _ _ _ _

theorem gives_run {opts : Options} (hcancelled : opts.cancelled = false) (hopts : opts.checkOnly = false)
    (hkept : opts.kept.join = none) (ss : List Source) : Gives (run opts ss) (made opts.max ss) := by
  refine gives_span fun root => ?_
  simp only [hcancelled, hopts]
  refine (gives_unit _).bind ?_
  split
  · rename_i kept hk _
    rw [hk] at hkept
    subst hkept
    exact (gives_unit _).bind <| (gives_unit _).bind (gives_compile hopts ss root)
  · exact gives_compile hopts ss root

/-! ### What stops it -/

/-- The remarks on a program by how grave they are: errors in front of all warnings, warnings, and errors
behind them. -/
structure Findings where
  early : List Diagnostic
  doubts : List Diagnostic
  late : List Diagnostic

def findings (ss : List Source) : Findings :=
  let docs := ss.map (·.parse none)
  let p := Program.ofDocuments docs
  let first := (Check.runAll Check.first p).run (.fresh p)
  let doubts := (Check.precision p).run first.2
  let last := (Check.runAll Check.last p).run doubts.2
  ⟨docs.flatMap (·.remarks) ++ first.1, doubts.1, last.1⟩

theorem remarks_eq (ss : List Source) :
    remarks ss = (findings ss).early ++ (findings ss).doubts ++ (findings ss).late := by
  -- The checks are made one after another, each with what those before it left remembered.
  have hall : Check.all = Check.first ++ ([⟨"imprecise-float-literal", Check.precision⟩] ++ Check.last) := rfl
  have hone (p : Program) (m : Memo) :
      (Check.runAll [⟨"imprecise-float-literal", Check.precision⟩] p).run m = (Check.precision p).run m := by
    simp [Check.runAll]
  grind [remarks, examined, findings, Check.run_runAll_append]

theorem findings_errors (ss : List Source) :
    Diagnostic.AllErrors (findings ss).early ∧ (∀ d ∈ (findings ss).doubts, d.isError = false) ∧
      Diagnostic.AllErrors (findings ss).late := by
  have w := Check.walk (.ofDocuments (ss.map (·.parse none)))
  refine ⟨.append (.flatMap fun d hd => ?_) (w.flatMapM w.first _), w.precision _, w.flatMapM w.last _⟩
  obtain ⟨s, -, rfl⟩ := mem_map.mp hd
  exact s.allErrors_parse none

/-- A build with any limit stops at its remarks exactly if the grammar or one of the first nine checks
finds an error, or one of the last three does and there are fewer warnings than the limit. So where a
build goes through, all remarks on the program are free of errors, unless the limit was used up by
warnings and only the last three checks find errors. -/
theorem stops_iff (max : Int) (ss : List Source) :
    remarks ss = (findings ss).early ++ (findings ss).doubts ++ (findings ss).late ∧
    Diagnostic.AllErrors ((findings ss).early ++ (findings ss).late) ∧ (∀ d ∈ (findings ss).doubts, d.isError = false) ∧
    ((outcome { max } ss).failure = some .diagnostics ↔
      (findings ss).early ≠ [] ∨
        (findings ss).late ≠ [] ∧ (findings ss).doubts.length < Diagnostic.limit max) ∧
    ((outcome { max } ss).failure = none →
      Diagnostic.hasErrors (remarks ss) = false ∨
        (findings ss).early = [] ∧ Diagnostic.limit max ≤ (findings ss).doubts.length) := by
  obtain ⟨hearly, hdoubts, hlate⟩ := findings_errors ss
  have hstops : (outcome { max } ss).failure = some .diagnostics ↔
      Diagnostic.hasErrors (Diagnostic.cap max (remarks ss)) = true := by
    have hmade : outcome { max } ss = made max ss := gives_run rfl rfl rfl ss .empty
    rw [hmade, made_failure, Diagnostic.hasErrors_sort]
  have hcap := Diagnostic.hasErrors_cap max hearly hdoubts hlate
  rw [← remarks_eq] at hcap
  refine ⟨remarks_eq ss, hearly.append hlate, hdoubts, hstops.trans hcap, fun hnone => ?_⟩
  have hgo : ¬ ((findings ss).early ≠ [] ∨
      (findings ss).late ≠ [] ∧ (findings ss).doubts.length < Diagnostic.limit max) := by
    rw [← hcap, ← hstops, hnone]
    nofun
  rw [not_or, not_not, not_and_or, not_not, Nat.not_lt] at hgo
  obtain ⟨hfirst, hlast | hfull⟩ := hgo
  · left
    rw [Diagnostic.hasErrors, any_eq_false, remarks_eq, hfirst, hlast]
    simpa using hdoubts
  · exact .inr ⟨hfirst, hfull⟩

end Build
end Parlance
