import Parlance.Session
import Parlance.Proofs.BuildGate
import Parlance.Proofs.DeclarationOrder
/-!
Lines of a session. A line that is refused leaves only its number; what a name means to a line is decided among
the lines before it by their names as texts.
-/
namespace Parlance

open List

namespace Session

open Build (Gives)

variable {α : Type} {s : Session} {code : Bytes} {max : Int} {ss : List Source}

/-! ### What comes of a line -/

theorem exists_gives_step (x : Machine.Step α) (m : Machine.State) : ∃ a n, Gives (Ran.step x m) (a, n) := by
  unfold Ran.step
  cases x { m with events := [] } with
  | ok a n => exact ⟨_, _, (Build.gives_unit _).bind (.pure _)⟩
  | error e n => exact ⟨_, _, (Build.gives_unit _).bind (.pure _)⟩

theorem exists_gives_evaluate (is : List Instruction) (m : Machine.State) : ∃ a, Gives (evaluate is m) a := by
  obtain ⟨a, n, hstep⟩ := exists_gives_step (result is) m
  cases a with
  | error f => exact ⟨_, hstep.bind (.pure _)⟩
  | ok value =>
    obtain ⟨b, k, hrest⟩ := exists_gives_step (unwind m.stack.length n.stack.length) n
    cases b with
    | error f => exact ⟨_, hstep.bind (hrest.bind (.pure _))⟩
    | ok => exact ⟨_, hstep.bind (hrest.bind (.pure _))⟩

def source (s : Session) (code : Bytes) : Source := .replLine s.next code

def extended (s : Session) (code : Bytes) : Program := .ofForest (s.forest.plant ((s.source code).parse none))

def skipped (s : Session) : Session := { s with next := s.next + 1 }

/-- The session after a line that was accepted and left the machine like this. -/
def accepted (s : Session) (code : Bytes) (machine : Machine.State) : Session where
  forest := (s.extended code).toForest
  sources := s.sources.filter (·.uri != (s.source code).uri) ++ [s.source code]
  machine := machine
  next := s.next + 1
  max := s.max

/-- A line is refused and its number used up, or it is accepted and its code is run. -/
inductive Comes (s : Session) (code : Bytes) : Session → Prop where
  | refused : Comes s code s.skipped
  | run (hclean : Diagnostic.hasErrors ((s.source code).parse none).remarks = false) (m : Machine.State) :
    Comes s code (s.accepted code m)

theorem eq_nil_of_no_errors {ds found : List Diagnostic} (hds : Diagnostic.AllErrors ds)
    (h : Diagnostic.hasErrors (Diagnostic.sort (Diagnostic.cap max (ds ++ found))) = false) : ds = [] := by
  rw [Diagnostic.hasErrors_sort] at h
  cases ds with
  | nil => rfl
  | cons d ds =>
    rw [cons_append, Diagnostic.hasErrors_cap_cons (hds d mem_cons_self)] at h
    cases h

theorem exists_gives_bind {β : Type} {x : Journaling α} {f : α → Journaling β} {a : α} {P : β → Prop}
    (hx : Gives x a) (h : ∃ b, Gives (f a) b ∧ P b) : ∃ b, Gives (x >>= f) b ∧ P b :=
  let ⟨b, hb, hP⟩ := h
  ⟨b, hx.bind hb, hP⟩

theorem exists_gives_span {scope : Trace.Scope} {name : String} {parent : Nat} {extra : List (String × String)}
    {detail : α → String} {work : Journaling α} {P : α → Prop} (h : ∃ a, Gives work a ∧ P a) :
    ∃ a, Gives (Journal.span scope name parent extra detail fun _ => work) a ∧ P a :=
  let ⟨a, ha, hP⟩ := h
  ⟨a, Build.gives_span fun _ => ha, hP⟩

theorem exists_gives_line (s : Session) (code : Bytes) : ∃ a, Gives (s.line code) a ∧ Comes s code a.2 := by
  generalize hchecks : (Check.runAll Check.all (s.extended code)).run (.fresh (s.extended code)) = checks
  obtain ⟨found, memo⟩ := checks
  unfold line
  refine exists_gives_span ?_
  unfold extended source at hchecks
  simp only [hchecks]
  split
  · exact ⟨_, .pure _, .refused⟩
  · rename_i herrors
    have hclean := eq_nil_of_no_errors ((s.source code).allErrors_parse none) (Bool.eq_false_iff.mpr herrors)
    split
    · exact ⟨_, .pure _, .refused⟩
    · rename_i is hcode
      obtain ⟨⟨value, fault, m⟩, hrun⟩ := exists_gives_evaluate is s.machine
      exact ⟨_, hrun.bind (.pure _), .run (by rw [hclean]; rfl) m⟩

/-! ### Sessions that can be reached -/

/-- The sessions that a start and lines lead to. -/
inductive Reached : Session → Prop where
  | start {max : Int} {m : Machine.State} {ss : List Source} {s : Session} {j : Journal}
    (h : ((start max m ss).run j).1.2 = .ok s) : Reached s
  | line {s : Session} (h : Reached s) (code : Bytes) (j : Journal) : Reached ((s.line code).run j).1.2

/-- The trees stand in the order of their names as texts, and are those of the sources. -/
structure Orderly (f : Forest) (ss : List Source) : Prop where
  sown : f.Sown
  sorted : f.uris.Pairwise (· < ·)
  known : ∀ u, u ∈ f.uris ↔ u ∈ ss.map (·.uri)

theorem Orderly.plant {f : Forest} {src : Source} (h : Orderly f ss)
    (hclean : Diagnostic.hasErrors (src.parse none).remarks = false) :
    Orderly (f.plant (src.parse none)) (ss.filter (·.uri != src.uri) ++ [src]) where
  sown := h.sown.plant (Source.proper_of_no_errors hclean)
  sorted := pairwise_map.mpr (sorted_placeBy (pairwise_map.mp h.sorted))
  known u := by
    have hu : u ∈ (f.plant (src.parse none)).uris ↔ u = src.uri ∨ u ∈ f.uris := mem_map_placeBy
    rw [hu, h.known u]
    grind

theorem orderly_all (hclean : ∀ s ∈ ss, Diagnostic.hasErrors (s.parse none).remarks = false) :
    Orderly (.ofDocuments (ss.map (·.parse none))) (Build.distinct ss) := by
  have hfold (f : Forest) (known : List Source) (h : Orderly f known) :
      Orderly ((ss.map (·.parse none)).foldl Forest.plant f)
        (ss.foldl (fun acc s => acc.filter (·.uri != s.uri) ++ [s]) known) := by
    induction ss generalizing f known with
    | nil => exact h
    | cons s ss ih =>
      obtain ⟨hs, hss⟩ := forall_mem_cons.mp hclean
      exact ih hss _ _ (h.plant hs)
  exact hfold .empty [] ⟨nofun, .nil, fun _ => iff_of_false nofun nofun⟩

theorem orderly_made (h : (Build.made max ss).failure = none) :
    ∃ p, (Build.made max ss).program = some p ∧ Orderly p.toForest (Build.made max ss).sources := by
  have herrors : ¬ Diagnostic.hasErrors (Diagnostic.sort (Diagnostic.cap max (Build.remarks ss))) :=
    fun herrors => nomatch h.symm.trans ((Build.made_failure max ss).mpr herrors)
  have hmade : (Build.made max ss).program = some (.ofDocuments (ss.map (·.parse none))) ∧
      (Build.made max ss).sources = Build.distinct ss := by
    rw [Build.made, if_neg herrors]
    dsimp only
    constructor <;> split <;> rfl
  have hremarks := eq_nil_of_no_errors (.flatMap fun d hd => ?_) (Bool.eq_false_iff.mpr herrors)
  · refine ⟨_, hmade.1, hmade.2 ▸ orderly_all fun s hs => ?_⟩
    rw [flatMap_eq_nil_iff.mp hremarks _ (mem_map_of_mem hs)]
    rfl
  · obtain ⟨s, -, rfl⟩ := mem_map.mp hd
    exact s.allErrors_parse none

theorem exists_gives_start (max : Int) (m : Machine.State) (ss : List Source) :
    ∃ a, Gives (start max m ss) a ∧ ∀ s, a.2 = .ok s → Orderly s.forest s.sources := by
  refine exists_gives_bind (Build.gives_run rfl rfl rfl ss) ?_
  split
  · exact ⟨_, .pure _, nofun⟩
  · exact ⟨_, .pure _, nofun⟩
  · rename_i p hfailure hprogram
    obtain ⟨p', hp, horderly⟩ := orderly_made hfailure
    obtain rfl : p' = p := Option.some.inj (hp.symm.trans hprogram)
    obtain ⟨a, n, hstep⟩ := exists_gives_step (Machine.eval _) m
    refine exists_gives_bind hstep ?_
    cases a with
    | error => exact ⟨_, .pure _, nofun⟩
    | ok => exact ⟨_, .pure _, fun s hs => Except.ok.inj hs ▸ horderly⟩

theorem Reached.orderly (h : Reached s) : Orderly s.forest s.sources := by
  induction h with
  | @start max m ss s j h =>
    obtain ⟨a, hstart, hs⟩ := exists_gives_start max m ss
    exact hs s (hstart j ▸ h)
  | @line s _ code j ih =>
    obtain ⟨⟨r, t⟩, hline, hcomes⟩ := exists_gives_line s code
    rw [hline j]
    cases hcomes with
    | refused => exact ih
    | run hclean => exact ih.plant hclean

end Session

/-! ### What a name means to a line -/

namespace Forest

variable {f : Forest} {name : String} {root n : Node}

/-- A walk through a line leaves out the scopes inside it and type parameters. -/
def isOpen (n : Node) : Bool := n.shape != .typeParameterList && (!n.shape.isScopeRoot || n.shape == .lineRoot)

/-- What the line of this name makes a value's name mean, if anything. -/
def meaningIn? (f : Forest) (name : String) (uri : Uri) : Option Node :=
  ((f.root? uri).filter (·.shape == .lineRoot)).bind fun l =>
    (walk isOpen (f.within l)).findSome? (f.meaning? name .value)

theorem walk_congr {enter enter' : Node → Bool} {ns : List Node} (h : ∀ n ∈ ns, enter n = enter' n) :
    walk enter ns = walk enter' ns := by
  have hgo (skip : Nat) : walk.go enter skip ns = walk.go enter' skip ns := by
    induction ns generalizing skip with
    | nil => rfl
    | cons n ns ih => grind [walk.go]
  exact hgo 0

theorem findSome?_flatMap_filterMap {α β γ δ : Type} {g : α → Option β} {h : β → List γ} {m : γ → Option δ}
    {k : α → Option δ} {as : List α} (hk : ∀ a ∈ as, k a = (g a).bind fun b => (h b).findSome? m) :
    ((as.filterMap g).flatMap h).findSome? m = as.findSome? k := by
  induction as with
  | nil => rfl
  | cons a as ih => grind

theorem planted?_of_mem (hsorted : f.uris.Pairwise (· < ·)) {t : Planted} (ht : t ∈ f.plants) :
    f.planted? t.uri = some t := by
  obtain ⟨before, after, hsplit⟩ := append_of_mem ht
  refine find?_eq_some_iff_append.mpr ⟨beq_self_eq_true _, before, after, hsplit, fun q hq => ?_⟩
  have hlt := (pairwise_append.mp (hsplit ▸ pairwise_map.mp hsorted)).2.2 q hq t mem_cons_self
  simp [String.ne_of_lt hlt]

/-- Lines are asked in the order of their names as texts. -/
theorem inScope?_line (hf : f.Sown) (hsorted : f.uris.Pairwise (· < ·)) (hroot : f.Has root)
    (hs : root.shape = .lineRoot) : f.inScope? name .value root = f.uris.findSome? (f.meaningIn? name) := by
  have hlines : f.lines = f.plants.filterMap fun t => (f.node? t.root).filter (·.shape == .lineRoot) :=
    filter_filterMap
  have hscope : f.scopeNodes (·.shape != .typeParameterList) root =
      f.lines.flatMap fun l => walk isOpen (f.within l) := by
    rw [scopeNodes, if_pos (by rw [hs]; rfl)]
    refine flatMap_congr fun l hl => walk_congr fun n hn => ?_
    have hn := ((hf.has_root (mem_filter.mp hl).1).mem_within.mp hn).1
    by_cases hid : n.id = root.id
    · rw [hn.eq_of_id hroot hid, hs]
      simp [isOpen, hs]
    · rw [isOpen, beq_eq_false_iff_ne.mpr hid, Bool.false_or]
  have hparameters : f.scopeParameters .value root = [] := by
    rw [scopeParameters, hs]
    rfl
  rw [inScope?, hparameters, hscope, hlines, uris, findSome?_map]
  grind [findSome?_flatMap_filterMap, meaningIn?, root?, planted?_of_mem]

theorem inScope?_inner (hs : n.shape ≠ .lineRoot) (hown : ∀ q ∈ f.within n, f.meaning? name .value q = none) :
    f.inScope? name .value n = none := by
  grind [scopeParameters, inScope?, scopeNodes, mem_of_mem_walk]

theorem findSome?_scopesAround (hf : f.Sown) (hr : root ∈ f.roots) (hs : root.shape = .lineRoot)
    (hn : n ∈ f.within root) (hown : ∀ q ∈ f.within root, f.meaning? name .value q = none) :
    (f.scopesAround n).findSome? (f.inScope? name .value) = f.inScope? name .value root := by
  have hroot := hf.has_root hr
  generalize hi : n.id = i
  induction i using Nat.strongRecOn generalizing n with
  | _ i ih =>
    obtain rfl | ⟨q, hq, hqstop, hc⟩ := hf.within_root hr hn
    · rw [scopesAround, hf.upwards_root hr]
      simp [hs, Shape.isScopeRoot]
    · have hqhas := (hroot.mem_within.mp hq).1
      obtain ⟨hnhas, hparent, hlt, hstop⟩ := hqhas.child hc
      have hrest := ih q.id (hi ▸ hlt) hq rfl
      rw [scopesAround, hqhas.upwards_child hc, filter_cons]
      split
      · have hinner : n.shape ≠ .lineRoot := fun hline => by
          obtain ⟨-, -, -, hnone⟩ := hf.root (hf.mem_roots hnhas (.inr hline))
          exact nomatch hparent.symm.trans hnone
        rw [findSome?_cons, inScope?_inner hinner fun m hm => hown m ?_]
        · exact hrest
        · obtain ⟨hmhas, hmfirst, hmlast⟩ := hnhas.mem_within.mp hm
          have hfirst := (hroot.mem_within.mp hn).2.1
          exact hroot.mem_within.mpr ⟨hmhas, by omega, by omega⟩
      · exact hrest

end Forest

namespace Session

variable {s : Session} {code : Bytes}

theorem root_extended {root : Node} (hsorted : (s.extended code).uris.Pairwise (· < ·))
    (hroot : (s.extended code).root? (s.source code).uri = some root) :
    root ∈ (s.extended code).roots ∧ root.shape = .lineRoot := by
  let t : Planted := ⟨(s.source code).parse none, s.forest.nodes.size⟩
  have ht : t ∈ (s.extended code).plants := self_mem_placeBy
  have hfound : (s.extended code).planted? (s.source code).uri = some t := Forest.planted?_of_mem hsorted ht
  rw [Forest.root?, hfound] at hroot
  refine ⟨mem_filterMap.mpr ⟨t, ht, hroot⟩, ?_⟩
  have hlies := (Tree.place_spec none s.forest.nodes t.document.tree).2.2
  have hshape : t.document.tree.shape = .lineRoot := ((s.source code).root_parse none).1
  change (Tree.place none s.forest.nodes t.document.tree)[s.forest.nodes.size]? = some root at hroot
  generalize t.document.tree = tree at hlies hshape hroot
  obtain ⟨shape, span, children⟩ := tree
  exact (congrArg Node.shape (Option.some.inj (hroot.symm.trans hlies.1))).trans hshape

/-- A value's name that a line does not declare anywhere means what the first line that declares it makes it
mean, in the order of the names of lines as texts, whenever they were accepted. Without such a line it means
what a module declares, or a class of the library. -/
theorem name_in_line (hs : Reached s) (hclean : Diagnostic.hasErrors ((s.source code).parse none).remarks = false)
    {root r : Node} {name : String} (hroot : (s.extended code).root? (s.source code).uri = some root)
    (hr : r ∈ (s.extended code).within root) (hshape : r.shape = .reference)
    (hname : (s.extended code).nameOf? r = some name)
    (hown : ∀ n ∈ (s.extended code).within root, (s.extended code).meaning? name .value n = none) :
    (s.extended code).uris.Pairwise (· < ·) ∧
      (∀ u, u ∈ (s.extended code).uris ↔ u = (s.source code).uri ∨ u ∈ s.sources.map (·.uri)) ∧
      (s.extended code).declaration? r .value =
        ((s.extended code).uris.findSome? ((s.extended code).meaningIn? name)).or
          (((s.extended code).global? name .value).or ((s.extended code).standard? name)) := by
  have horderly := hs.orderly
  have hsown : (s.extended code).Sown := horderly.sown.plant (Source.proper_of_no_errors hclean)
  have hsorted : (s.extended code).uris.Pairwise (· < ·) := (horderly.plant hclean).sorted
  obtain ⟨hmem, hline⟩ := root_extended hsorted hroot
  refine ⟨hsorted, fun u => mem_map_placeBy.trans (or_congr .rfl (horderly.known u)), ?_⟩
  have hscopes := Forest.findSome?_scopesAround hsown hmem hline hr hown
  rw [Forest.inScope?_line hsown hsorted (hsown.has_root hmem) hline] at hscopes
  rw [Program.declaration?, hshape]
  simp only [hname, Option.bind_some, Program.declarationOf?]
  rw [hscopes]

def reply (s : Session) (code : String) : Reply × Session := ((s.line (Bytes.ofString code)).run .empty).1

def blank : Session := (((start 0 (.fresh 8) []).run .empty).1.2.toOption).get (by decide +kernel)

theorem reached_blank : Reached blank := by
  have hblank : ((start 0 (.fresh 8) []).run .empty).1.2.toOption = some blank := (Option.some_get _).symm
  refine @Reached.start 0 (.fresh 8) [] blank .empty ?_
  cases hstart : ((start 0 (.fresh 8) []).run .empty).1.2 with
  | error e =>
    rw [hstart] at hblank
    cases hblank
  | ok s =>
    rw [hstart] at hblank
    exact congrArg Except.ok (Option.some.inj hblank)

def twofold : Session := ((blank.reply "class A { }").2.reply "class A { a => self. }").2

/-- The class of the first of the two lines is meant. -/
theorem name_in_line_twofold : ∃ r, (twofold.extended (Bytes.ofString "A.")).nameOf? r = some "A" ∧
    ((twofold.extended (Bytes.ofString "A.")).declaration? r .value).map (·.span.uri) = some "repl:1" := by
  have huri : (twofold.source (Bytes.ofString "A.")).uri = "repl:3" := by decide +kernel
  have hreached : Reached twofold := .line (.line reached_blank _ .empty) _ .empty
  generalize hp : twofold.extended (Bytes.ofString "A.") = p
  have hline : (p.root? "repl:3").any (fun root =>
      (p.within root).any (fun r => r.shape == .reference && p.nameOf? r == some "A") &&
        (p.within root).all fun n => (p.meaning? "A" .value n).isNone) = true := by
    rw [← hp]
    decide +kernel
  have hfirst : (p.uris.findSome? (p.meaningIn? "A")).map (·.span.uri) = some "repl:1" := by
    rw [← hp]
    decide +kernel
  obtain ⟨root, hroot, hline⟩ := (Option.any_eq_true ..).mp hline
  simp only [Bool.and_eq_true, any_eq_true, all_eq_true, beq_iff_eq, Option.isNone_iff_eq_none] at hline
  obtain ⟨⟨r, hr, hshape, hname⟩, hown⟩ := hline
  subst hp
  obtain ⟨-, -, hmeans⟩ := name_in_line hreached (by decide +kernel) (huri.symm ▸ hroot) hr hshape hname hown
  refine ⟨r, hname, ?_⟩
  rw [hmeans]
  obtain ⟨d, hd, hfirst⟩ := Option.map_eq_some_iff.mp hfirst
  rw [hd, Option.some_or, Option.map_some, hfirst]

end Session

end Parlance
