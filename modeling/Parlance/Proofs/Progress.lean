import Parlance.Proofs.Layout
/-!
Readers that come to an end: they take words, stay within the text and reach no bound.
-/
namespace Parlance

open List

structure Span.Lies (src : Source) (span : Span) : Prop where
  uri : span.uri = src.uri
  first : 0 ≤ span.start.offset
  order : span.start.offset ≤ span.stop.offset
  last : span.stop.offset ≤ src.size

def Location.Lies (src : Source) (l : Location) : Prop := 0 ≤ l.offset ∧ l.offset ≤ src.size

variable {src : Source} {span : Span}

theorem Span.Lies.start (h : span.Lies src) : span.start.Lies src :=
  ⟨h.first, Int.le_trans h.order h.last⟩

theorem Span.Lies.stop (h : span.Lies src) : span.stop.Lies src :=
  ⟨Int.le_trans h.first h.order, h.last⟩

def Span.Apart (a b : Span) : Prop := a.stop.offset ≤ b.start.offset ∨ b.stop.offset ≤ a.start.offset

/-! ### Where words stand -/

theorem Location.offset_step (l : Location) (c : Char) (n : Nat) : (l.step c n).offset = l.offset + n := by
  unfold step
  split <;> rfl

theorem Location.offset_advance (l : Location) (text : Bytes) : (l.advance text).offset = l.offset + text.length := by
  have hgo (skip : Nat) (s : Bytes) (l : Location) :
      ((Utf8.runes.go skip s).foldl (fun l r => l.step r.1 r.2) l).offset = l.offset + (s.length - skip : Nat) := by
    induction s generalizing skip l with
    | nil => simp [Utf8.runes.go]
    | cons b bs ih =>
      cases skip with
      | zero => grind [offset_step, Utf8.length_decodeFrom, Utf8.runes.go]
      | succ skip =>
        simp only [Utf8.runes.go, ih, length_cons]
        omega
  exact hgo 0 text l

namespace Token

theorem mem_place {uri : Uri} {start : Location} {ws : List Lexeme} {t : Token} (h : t ∈ place uri start ws) :
    t.span.uri = uri ∧ start.offset ≤ t.span.start.offset ∧
      t.span.stop.offset = t.span.start.offset + t.text.length ∧
      t.span.stop.offset ≤ start.offset + (ws.flatMap (·.text)).length := by
  induction ws generalizing start with
  | nil =>
    simp only [place, mem_singleton] at h
    simp [h]
  | cons w ws ih =>
    have hstop := start.offset_advance w.text
    grind [place]

theorem pairwise_place (uri : Uri) (start : Location) (ws : List Lexeme) :
    (place uri start ws).Pairwise fun t u => t.span.stop.offset ≤ u.span.start.offset := by
  induction ws generalizing start with
  | nil => simp [place]
  | cons w ws ih =>
    rw [place, pairwise_cons]
    exact ⟨fun u hu => (mem_place hu).2.1, ih _⟩

end Token

theorem Source.offset_endLocation (src : Source) : src.endLocation.offset = src.size := by
  rw [endLocation, Location.offset_advance]
  simp [Location.origin, size]

theorem Source.lies_of_mem_tokens {t : Token} (h : t ∈ src.tokens) : t.span.Lies src := by
  obtain ⟨huri, hfirst, horder, hlast⟩ := Token.mem_place h
  rw [flatMap_text_lexemes] at hlast
  simp only [Location.origin] at hfirst hlast
  exact ⟨huri, hfirst, by omega, by simpa [size] using hlast⟩

/-! ### Trees within a source -/

namespace Tree

mutual

theorem map_rowsFrom (d e : Nat) : (t : Tree) → (rowsFrom d t).map (·.2) = (rowsFrom e t).map (·.2)
  | .node shape span children => by simp only [rowsFrom, map_cons, map_rowsOf (d + 1) (e + 1) children]

theorem map_rowsOf (d e : Nat) : (ts : List Tree) → (rowsOf d ts).map (·.2) = (rowsOf e ts).map (·.2)
  | [] => rfl
  | t :: ts => by simp only [rowsOf, map_append, map_rowsFrom d e t, map_rowsOf d e ts]

end

theorem map_rowsOf_eq (d : Nat) (ts : List Tree) : (rowsOf d ts).map (·.2) = ts.flatMap nodes := by
  induction ts with
  | nil => rfl
  | cons t ts ih =>
    rw [rowsOf, map_append, ih, flatMap_cons, map_rowsFrom d 0]
    rfl

theorem nodes_node (shape : Shape) (span : Span) (children : List Tree) :
    (node shape span children).nodes = node shape span children :: children.flatMap nodes := by
  rw [← map_rowsOf_eq 1]
  rfl

variable {t : Tree} {src : Source}

theorem isSound_iff : t.isSound src ↔ ∀ n ∈ t.nodes, n.span.Lies src := by
  rw [isSound, all_eq_true]
  refine forall₂_congr fun n _ => ?_
  simp only [Bool.and_eq_true, beq_iff_eq, decide_eq_true_eq]
  exact ⟨fun ⟨⟨⟨huri, hfirst⟩, horder⟩, hlast⟩ => ⟨huri, hfirst, horder, hlast⟩,
    fun h => ⟨⟨⟨h.uri, h.first⟩, h.order⟩, h.last⟩⟩

theorem isSound_node {shape : Shape} {span : Span} {children : List Tree} (h : span.Lies src)
    (hc : ∀ c ∈ children, c.isSound src) : (node shape span children).isSound src := by
  rw [isSound_iff, nodes_node, forall_mem_cons]
  refine ⟨h, fun n hn => ?_⟩
  obtain ⟨c, hmem, hn⟩ := mem_flatMap.mp hn
  exact isSound_iff.mp (hc c hmem) n hn

theorem lies_of_isSound (h : t.isSound src) : t.span.Lies src ∧ ∀ c ∈ t.children, c.isSound src := by
  obtain ⟨shape, span, children⟩ := t
  rw [isSound_iff, nodes_node, forall_mem_cons] at h
  refine ⟨h.1, fun c hc => isSound_iff.mpr fun n hn => h.2 n ?_⟩
  exact mem_flatMap.mpr ⟨c, hc, hn⟩

def Apart (a b : Tree) : Prop := a.span.Apart b.span

/-- Every node of the tree holds its children, which are not empty and share at most a border. -/
inductive Nests : Tree → Prop where
  | node {shape : Shape} {span : Span} {children : List Tree} (hc : ∀ c ∈ children, Nests c)
      (hin : ∀ c ∈ children, span.start.offset ≤ c.span.start.offset ∧
        c.span.start.offset < c.span.stop.offset ∧ c.span.stop.offset ≤ span.stop.offset)
      (hapart : children.Pairwise Apart) : Nests (.node shape span children)

end Tree

namespace Grammar

variable {α β : Type} {src : Source} {up i : Nat} {s t u : State} {ts us acc : List Twig} {k : Token.Kind}
  {G : Tree → Prop} {I J : α → State → Prop} {shape : Shape} {a : α} {c : Twig} {start : Location} {o : Option Twig}
  {b : Bud}

instance : Coe Twig Tree := ⟨Twig.tree⟩

/-! ### States -/

namespace State

def word (s : State) (n : Nat) : Token := (s.rest[n]?).getD s.mark

def kindAt (s : State) (n : Nat) : Token.Kind := (s.word n).kind

def next (s : State) : State := (advance.run s).2

def spot (s : State) : Span := (here.run s).1

def front (s : State) : Int := (s.word 0).span.start.offset

def lastStop (s : State) : Location := s.last.getD .origin

def back (s : State) : Int := s.lastStop.offset

def keep (s : State) (a : Arena) : State := { s with arena := a }

/-- After a number was handed out. -/
abbrev opened (s : State) : State := s.keep (s.arena.push none)

/-- After a number was handed out and trees were moved below it. -/
abbrev adopting (s : State) (ts : List Twig) : State := s.opened.keep (s.opened.arena.reparentAll s.arena.size ts)

@[simp, grind =]
theorem rest_keep (s : State) (a : Arena) : (s.keep a).rest = s.rest := rfl

@[simp, grind =]
theorem word_keep (s : State) (a : Arena) (n : Nat) : (s.keep a).word n = s.word n := rfl

@[simp, grind =]
theorem kindAt_keep (s : State) (a : Arena) (n : Nat) : (s.keep a).kindAt n = s.kindAt n := rfl

/-- There was nothing to remark on, and there would have been room for it. -/
def Clean (s : State) : Prop := s.room ≠ some 0 ∧ s.remarks = []

/-- The words and the remarks lie within the source, in their order, and nothing was cut off. -/
structure Steady (src : Source) (s : State) : Prop where
  words : ∀ w ∈ s.rest, w.kind ≠ .eof ∧ w.span.Lies src ∧ w.IsSpelled ∧ w.span.start.offset < w.span.stop.offset
  mark : s.mark.kind = .eof ∧ s.mark.span.Lies src
  order : (s.rest ++ [s.mark]).Pairwise fun t u => t.span.stop.offset ≤ u.span.start.offset
  last : s.lastStop.Lies src
  behind : s.back ≤ s.front
  remarks : ∀ d ∈ s.remarks, d.span.Lies src
  whole : s.cut = false
  grave : ∀ d ∈ s.remarks, d.isError

@[simp, grind =]
theorem clean_keep (s : State) (a : Arena) : (s.keep a).Clean ↔ s.Clean := .rfl

theorem Steady.keep (h : s.Steady src) (a : Arena) : (s.keep a).Steady src :=
  ⟨h.words, h.mark, h.order, h.last, h.behind, h.remarks, h.whole, h.grave⟩

theorem Steady.word (h : s.Steady src) (n : Nat) :
    (s.word n).span.Lies src ∧ ((s.word n).kind ≠ .eof → (s.word n).IsSpelled) := by
  unfold State.word
  cases hw : s.rest[n]? with
  | none => exact ⟨h.mark.2, fun hk => absurd h.mark.1 hk⟩
  | some w => exact ⟨(h.words w (mem_of_getElem? hw)).2.1, fun _ => (h.words w (mem_of_getElem? hw)).2.2.1⟩

theorem Steady.ne_nil (h : s.Steady src) : s.kindAt 0 ≠ .eof ↔ s.rest ≠ [] := by
  unfold kindAt State.word
  cases hr : s.rest with
  | nil => simp [h.mark.1]
  | cons w ws => simpa using (h.words w (hr ▸ mem_cons_self)).1

theorem next_nil (h : s.rest = []) : s.next = s := by
  cases s
  cases h
  rfl

theorem next_cons {w : Token} {ws : List Token} (h : s.rest = w :: ws) :
    s.next = { s with rest := ws, last := some w.span.stop } := by
  cases s
  cases h
  rfl

theorem Steady.spot (h : s.Steady src) : s.spot.Lies src := by
  obtain ⟨rest, mark, last, _, _, _, _⟩ := s
  cases rest with
  | cons w ws => exact (h.words w mem_cons_self).2.1
  | nil =>
    cases last with
    | none => exact h.mark.2
    | some l => exact ⟨h.mark.2.uri, h.last.1, Int.le_refl _, h.last.2⟩

end State

/-! ### What is read between two states -/

/-- The trees lie one beside the other between two offsets. -/
def Stand (lo hi : Int) (ts : List Twig) : Prop :=
  ts.Pairwise (fun a b => a.tree.Apart b.tree) ∧ ∀ t ∈ ts, t.tree.Nests ∧ lo ≤ t.span.start.offset ∧
    t.span.start.offset < t.span.stop.offset ∧ t.span.stop.offset ≤ hi

/-- From `s` to `t` the trees were read, no remark was taken back, and the arena came to hold the nodes of
the trees below `up` and no others. -/
structure Reads (src : Source) (up : Nat) (s : State) (ts : List Twig) (t : State) : Prop where
  steady : t.Steady src
  rest : t.rest.length ≤ s.rest.length
  quiet : t.remarks = [] → s.remarks = [] ∧ t.room = s.room
  sound : ∀ c ∈ ts, c.tree.isSound src
  forth : s.front ≤ t.front ∧ s.back ≤ t.back
  took : t.rest.length < s.rest.length → s.front < t.back
  stand : t.Clean → Stand s.front t.back ts
  grown : Arena.Grows s.arena (Twig.layoutAll (some up) ts) t.arena

theorem Reads.clean (h : Reads src up s ts t) (hc : t.Clean) : s.Clean :=
  have hq := h.quiet hc.2
  ⟨hq.2 ▸ hc.1, hq.1⟩

theorem Reads.refl (h : s.Steady src) : Reads src up s [] s :=
  ⟨h, Nat.le_refl _, fun hq => ⟨hq, rfl⟩, nofun, ⟨Int.le_refl _, Int.le_refl _⟩, fun h => absurd h (Nat.lt_irrefl _),
    fun _ => ⟨.nil, nofun⟩, .refl _⟩

theorem Reads.trans (h : Reads src up s ts t) (h' : Reads src up t us u) : Reads src up s (ts ++ us) u := by
  have hb := h.steady.behind
  have hf := h.forth
  have hf' := h'.forth
  refine ⟨h'.steady, Nat.le_trans h'.rest h.rest, fun hu => ?_,
    forall_mem_append.mpr ⟨h.sound, h'.sound⟩, by omega, fun hlt => ?_, fun hu => ?_, ?_⟩
  · have hq := h.quiet (h'.quiet hu).1
    exact ⟨hq.1, (h'.quiet hu).2.trans hq.2⟩
  · by_cases ht : t.rest.length < s.rest.length
    · have := h.took ht
      omega
    · have := h'.took (by omega)
      omega
  · obtain ⟨hapart, hts⟩ := h.stand (h'.clean hu)
    obtain ⟨hapart', hus⟩ := h'.stand hu
    refine ⟨pairwise_append.mpr ⟨hapart, hapart', fun a ha b hb => .inl ?_⟩, fun c hc => ?_⟩
    · grind
    · grind
  · rw [Twig.layoutAll_append]
    exact h.grown.trans h'.grown

theorem Reads.perm (h : Reads src up s ts t) (hp : ts ~ us) : Reads src up s us t := by
  refine ⟨h.steady, h.rest, h.quiet, fun c hc => h.sound c (hp.mem_iff.mpr hc), h.forth, h.took, fun hc => ?_, ?_⟩
  · obtain ⟨hapart, hts⟩ := h.stand hc
    exact ⟨hapart.perm hp Or.symm, fun c hc => hts c (hp.mem_iff.mpr hc)⟩
  · refine h.grown.perm ?_
    rw [Twig.layoutAll_eq, Twig.layoutAll_eq]
    exact hp.flatMap_right _

/-- A tree that is dropped is taken out of the arena. -/
theorem Reads.drop (h : Reads src up s (ts ++ [c]) t) : Reads src up s ts (t.keep (t.arena.discard c)) := by
  have hmem (d : Twig) : d ∈ ts → d ∈ ts ++ [c] := mem_append_left [c]
  refine ⟨h.steady.keep _, h.rest, h.quiet, fun d hd => h.sound d (hmem d hd), h.forth, h.took, fun hc => ?_, ?_⟩
  · obtain ⟨hapart, hts⟩ := h.stand hc
    exact ⟨(pairwise_append.mp hapart).1, fun d hd => hts d (hmem d hd)⟩
  · refine Arena.Grows.discard c (p := some up) (h.grown.perm ?_)
    simpa [Twig.layoutAll_append, Twig.layoutAll] using perm_append_comm

theorem Reads.hold {a : Arena} (h : Reads src up s ts t) (hg : Arena.Grows s.arena (Twig.layoutAll (some i) ts) a) :
    Reads src i s ts (t.keep a) :=
  ⟨h.steady.keep _, h.rest, h.quiet, h.sound, h.forth, h.took, h.stand, hg⟩

/-- The trees come to stand below another node. -/
theorem Reads.move (h : Reads src up s ts t) (i : Nat) : Reads src i s ts (t.keep (t.arena.reparentAll i ts)) := by
  have hgrown := h.grown
  rw [← append_nil (Twig.layoutAll _ ts)] at hgrown
  have hmoved := hgrown.reparentAll i
  rw [append_nil] at hmoved
  exact h.hold hmoved

theorem Reads.bud (h : Reads src up s ts t) : Reads src up s ts t.opened := h.hold h.grown.push

theorem Reads.opened (h : Reads src up s [] s) : Reads src s.arena.size s.opened [] s.opened := .refl (h.steady.keep _)

/-- A number that is not used after all. -/
theorem Reads.abandon (h : Reads src i s.opened [] t) (hs : Reads src up s [] s) : Reads src up s [] t := by
  have hr : Reads src up s [] s.opened := hs.bud
  exact hr.trans ⟨h.steady, h.rest, h.quiet, nofun, h.forth, h.took, h.stand, h.grown⟩

theorem Reads.next (h : Reads src up s acc t) : Reads src up s acc t.next ∧
    t.next.rest.length = t.rest.length - 1 ∧ (t.next.Clean → t.Clean) := by
  have hsteady := h.steady
  cases hr : t.rest with
  | nil =>
    rw [State.next_nil hr]
    exact ⟨h, by simp [hr], id⟩
  | cons w ws =>
    obtain ⟨hk, hlies, -, hwide⟩ := hsteady.words w (hr ▸ mem_cons_self)
    have horder := hsteady.order
    rw [hr, cons_append, pairwise_cons] at horder
    have hfront : t.front = w.span.start.offset := by simp [State.front, State.word, hr]
    have hb : w.span.stop.offset ≤ ((ws[0]?).getD t.mark).span.start.offset := by
      cases hws : ws with
      | nil => exact horder.1 _ (by simp [hws])
      | cons v vs => exact horder.1 _ (by simp [hws])
    have hnext : Reads src up t [] t.next := by
      have hbehind := hsteady.behind
      rw [State.next_cons hr]
      refine ⟨⟨fun v hv => hsteady.words v (hr ▸ mem_cons_of_mem w hv), hsteady.mark, horder.2, hlies.stop, hb,
        hsteady.remarks, hsteady.whole, hsteady.grave⟩, by simp [hr], fun hq => ⟨hq, rfl⟩, nofun, ?_, fun _ => ?_,
        fun _ => ⟨.nil, nofun⟩, .refl _⟩
      · grind [State.front, State.back, State.lastStop, State.word]
      · rw [hfront]
        exact hwide
    exact ⟨by simpa using h.trans hnext, by simp [State.next_cons hr], hnext.clean⟩

/-! ### Readers -/

def read (r : Reader α) (s : State) : α × State := r.run s

section

variable (s)

@[simp]
theorem read_bind (x : Reader α) (f : α → Reader β) : read (x >>= f) s = read (f (read x s).1) (read x s).2 :=
  Prod.ext rfl rfl

@[simp, grind =]
theorem read_pure (a : α) : read (pure a) s = (a, s) := Prod.ext rfl rfl

@[simp]
theorem read_map (f : α → β) (x : Reader α) : read (f <$> x) s = (f (read x s).1, (read x s).2) := Prod.ext rfl rfl

@[simp]
theorem read_ite {c : Prop} [Decidable c] (x y : Reader α) :
    read (if c then x else y) s = if c then read x s else read y s := by
  split <;> rfl

@[simp]
theorem read_discard (x : Reader α) : read (discard x) s = ((), (read x s).2) := Prod.ext rfl rfl

@[simp]
theorem read_ahead (n : Nat) : read (ahead n) s = (s.word n, s) := Prod.ext rfl rfl

@[simp]
theorem read_peek : read peek s = (s.word 0, s) := Prod.ext rfl rfl

@[simp]
theorem read_kindAhead (n : Nat) : read (kindAhead n) s = (s.kindAt n, s) := Prod.ext rfl rfl

@[simp]
theorem read_position : read position s = ((s.word 0).span.start, s) := Prod.ext rfl rfl

@[simp]
theorem read_left : read left s = (s.rest.length, s) := Prod.ext rfl rfl

@[simp]
theorem read_here : read here s = (s.spot, s) := by
  obtain ⟨_ | ⟨w, ws⟩, _, _ | l, _, _, _, _⟩ := s <;> rfl

@[simp]
theorem read_advance : read advance s = (s.word 0, s.next) := by
  obtain ⟨_ | ⟨w, ws⟩, _, _, _, _, _, _⟩ := s <;> rfl

@[simp]
theorem read_isAt (k : Token.Kind) : read (isAt k) s = (s.kindAt 0 == k, s) := Prod.ext rfl rfl

@[simp]
theorem read_isAtAny (ks : List Token.Kind) : read (isAtAny ks) s = (ks.contains (s.kindAt 0), s) := Prod.ext rfl rfl

@[simp]
theorem read_isAtSymbol (text : String) : read (isAtSymbol text) s =
    (s.kindAt 0 == .symbol && (s.word 0).text == Bytes.ofString text, s) := Prod.ext rfl rfl

@[simp]
theorem read_isAtKeyword : read isAtKeyword s = (s.kindAt 0 == .symbol && s.kindAt 1 == .colon, s) := Prod.ext rfl rfl

@[simp]
theorem read_isAtBinary : read isAtBinary s = ((s.kindAt 0).isBinaryOperator, s) := Prod.ext rfl rfl

@[simp]
theorem read_miss (what : Expected) : read (miss what) s = read (remark s.spot (.missing what)) s := by
  simp [miss]

@[simp]
theorem read_get : read get s = (s, s) := Prod.ext rfl rfl

@[simp]
theorem read_openAt (up : Nat) (start : Location) :
    read (openAt up start) s = (⟨s.arena.size, some up, start⟩, s.opened) := Prod.ext rfl rfl

@[simp]
theorem read_openNode (up : Nat) :
    read (openNode up) s = (⟨s.arena.size, some up, (s.word 0).span.start⟩, s.opened) := Prod.ext rfl rfl

@[simp]
theorem read_reparent (up : Nat) (ts : List Twig) :
    read (reparent up ts) s = ((), s.keep (s.arena.reparentAll up ts)) := Prod.ext rfl rfl

@[simp]
theorem read_remove (t : Twig) : read (remove t) s = ((), s.keep (s.arena.remove t.id)) := Prod.ext rfl rfl

@[simp]
theorem read_drop (t : Twig) : read (drop t) s = ((), s.keep (s.arena.discard t)) := Prod.ext rfl rfl

def closed (b : Bud) (shape : Shape) (children : List Twig) (s : State) : Twig :=
  ((close b shape children).run s).1

/-- The arena after a node was closed. -/
def closing (b : Bud) (shape : Shape) (children : List Twig) (s : State) : Arena :=
  s.arena.add b.id ((closed b shape children s).entry b.parent).2

@[simp]
theorem read_close (b : Bud) (shape : Shape) (ts : List Twig) :
    read (close b shape ts) s = (closed b shape ts s, s.keep (closing b shape ts s)) := Prod.ext rfl rfl

end

theorem Reads.remark {span : Span} {m : Malformed} (h : Reads src up s acc t) (hspan : span.Lies src) :
    Reads src up s acc (read (remark span m) t).2 ∧ ¬ (read (remark span m) t).2.Clean ∧
      (read (remark span m) t).2.rest = t.rest ∧ (read (remark span m) t).2.kindAt 0 = t.kindAt 0 := by
  have hadd (room : Option Nat) : Reads src up s acc { t with
      room, remarks := (Problem.malformed m).report span :: t.remarks } := by
    obtain ⟨hwords, hmark, horder, hlast, hbehind, hremarks, hwhole, hgrave⟩ := h.steady
    exact ⟨⟨hwords, hmark, horder, hlast, hbehind, forall_mem_cons.mpr ⟨hspan, hremarks⟩, hwhole,
      forall_mem_cons.mpr ⟨rfl, hgrave⟩⟩, h.rest, fun hq => absurd hq (cons_ne_nil _ _), h.sound, h.forth, h.took,
      fun hc => absurd hc.2 (cons_ne_nil _ _), h.grown⟩
  simp only [read, StateT.run, Grammar.remark]
  split
  · grind [State.Clean]
  · exact ⟨hadd _, fun hc => absurd hc.2 (cons_ne_nil _ _), rfl, rfl⟩

/-- A node whose number is still open is closed around what was read before and after that. -/
theorem Reads.close (h : Reads src i s ts t) (h' : Reads src i t us u) (hi : s.arena.size ≤ i)
    (hopen : t.arena.IsOpen i) (hlies : start.Lies src) (ht : u.Clean → s.front ≤ start.offset ∧
      start.offset < u.back ∧ ∀ c ∈ ts ++ us, start.offset ≤ c.span.start.offset) :
    Reads src up s [closed ⟨i, some up, start⟩ shape (ts ++ us) u]
      (u.keep (closing ⟨i, some up, start⟩ shape (ts ++ us) u)) := by
  have hr := h.trans h'
  have hlast := hr.steady.last
  have hopen' : u.arena.IsOpen i :=
    ⟨Nat.lt_of_lt_of_le hopen.1 h'.grown.size, (h'.grown.kept i hopen.1).trans hopen.2⟩
  have hclosed : closed ⟨i, some up, start⟩ shape (ts ++ us) u =
      .node i shape ⟨u.mark.span.uri, start, if u.back < start.offset then start else u.lastStop⟩ (ts ++ us) := rfl
  refine ⟨hr.steady.keep _, hr.rest, hr.quiet, forall_mem_singleton.mpr ?_, hr.forth, hr.took, fun hc => ?_, ?_⟩
  · rw [hclosed, Twig.tree, Twig.trees_eq]
    refine Tree.isSound_node ⟨hr.steady.mark.2.uri, hlies.1, ?_, ?_⟩ (forall_mem_map.mpr hr.sound) <;>
      simp only <;> split
    · exact Int.le_refl _
    · exact Int.not_lt.mp ‹_›
    · exact hlies.2
    · exact hlast.2
  · obtain ⟨hfront, hlt, hstarts⟩ := ht hc
    obtain ⟨hapart, hts⟩ := hr.stand hc
    rw [hclosed, if_neg (by omega)]
    refine ⟨pairwise_singleton _ _, forall_mem_singleton.mpr ⟨?_, hfront, hlt, Int.le_refl _⟩⟩
    rw [Twig.tree, Twig.trees_eq]
    refine .node (forall_mem_map.mpr fun c hc => (hts c hc).1) (forall_mem_map.mpr fun c hc => ?_)
      (pairwise_map.mpr hapart)
    rw [Twig.span_tree]
    exact ⟨hstarts c hc, (hts c hc).2.2⟩
  · rw [Twig.layoutAll, Twig.layout_eq, Twig.layoutAll, append_nil]
    exact hr.grown.add hi hopen'

theorem Reads.node (h : Reads src s.arena.size s.opened ts t) (hs : Reads src up s [] s)
    (hstart : start = (s.word 0).span.start) (ht : ¬ t.Clean ∨ ts ≠ [] ∨ t.rest.length < s.rest.length) :
    Reads src up s [closed ⟨s.arena.size, some up, start⟩ shape ts t]
      (t.keep (closing ⟨s.arena.size, some up, start⟩ shape ts t)) := by
  subst hstart
  have hbud : Reads src s.arena.size s [] s.opened := (Reads.refl hs.steady).bud
  refine hbud.close h (Nat.le_refl _) (Arena.isOpen_push _) (hs.steady.word 0).1.start fun hc => ?_
  have hts := (h.stand hc).2
  refine ⟨Int.le_refl _, ?_, fun c hc => (hts c hc).2.1⟩
  obtain ht | ht | ht := ht
  · exact absurd hc ht
  · obtain ⟨c, hc⟩ := exists_mem_of_ne_nil ts ht
    have hspan := (hts c hc).2
    exact Int.lt_of_le_of_lt hspan.1 (Int.lt_of_lt_of_le hspan.2.1 hspan.2.2)
  · exact h.took ht

/-- A node that has been read comes to stand below a new one. -/
theorem Reads.wrap (h : Reads src up s [c] t) (hs : s.Steady src)
    (h' : Reads src t.arena.size (t.adopting [c]) ts u) (shape : Shape) :
    Reads src up s [closed ⟨t.arena.size, some up, (s.word 0).span.start⟩ shape (c :: ts) u]
      (u.keep (closing ⟨t.arena.size, some up, (s.word 0).span.start⟩ shape (c :: ts) u)) := by
  have hr := h.bud.move t.arena.size
  refine hr.close h' h.grown.size ((Arena.isOpen_push _).reparentAll _ _) (hs.word 0).1.start fun hc => ?_
  have hts := ((hr.trans h').stand hc).2
  have hc := (hts c mem_cons_self).2
  exact ⟨Int.le_refl _, Int.lt_of_le_of_lt hc.1 (Int.lt_of_lt_of_le hc.2.1 hc.2.2), fun d hd => (hts d hd).2.1⟩

/-- A node is taken out, and its children come to stand below a new one. -/
theorem Reads.reopen (h : Reads src up s [c] t)
    (h' : Reads src t.arena.size ((t.adopting c.children).keep ((t.adopting c.children).arena.remove c.id)) ts u)
    (shape : Shape) : Reads src up s [closed ⟨t.arena.size, some up, c.span.start⟩ shape (c.children ++ ts) u]
      (u.keep (closing ⟨t.arena.size, some up, c.span.start⟩ shape (c.children ++ ts) u)) := by
  obtain ⟨hlies, hsound⟩ := Tree.lies_of_isSound (h.sound c mem_cons_self)
  rw [Twig.span_tree] at hlies
  rw [Twig.children_tree, forall_mem_map] at hsound
  have hnests (hc : t.Clean) : c.children.Pairwise (fun a b => a.tree.Apart b.tree) ∧ ∀ d ∈ c.children, d.tree.Nests ∧
      c.span.start.offset ≤ d.span.start.offset ∧ d.span.start.offset < d.span.stop.offset ∧
      d.span.stop.offset ≤ c.span.stop.offset := by
    obtain ⟨i, sh, span, ds⟩ := c
    have hn := ((h.stand hc).2 _ mem_cons_self).1
    rw [Twig.tree, Twig.trees_eq] at hn
    obtain ⟨hcs, hin, hapart⟩ := hn
    exact ⟨pairwise_map.mp hapart, fun d hd => ⟨hcs _ (mem_map_of_mem hd), d.span_tree ▸ hin _ (mem_map_of_mem hd)⟩⟩
  have hgrown : Arena.Grows s.arena (Twig.layoutAll (some t.arena.size) c.children)
      ((t.adopting c.children).arena.remove c.id) := by
    have hg := h.grown.push
    rw [Twig.layoutAll, Twig.layout_eq, Twig.layoutAll, append_nil] at hg
    exact ((hg.perm (perm_append_singleton _ _).symm).reparentAll _ |>.perm (perm_append_singleton _ _)).remove
  have hopen : Reads src t.arena.size s c.children
      ((t.adopting c.children).keep ((t.adopting c.children).arena.remove c.id)) :=
    ⟨h.steady.keep _, h.rest, h.quiet, hsound, h.forth, h.took, fun hc => ?_, hgrown⟩
  · refine hopen.close h' h.grown.size (((Arena.isOpen_push _).reparentAll _ _).remove _) hlies.start fun hc => ?_
    have hspan := ((h.stand (h'.clean hc)).2 c mem_cons_self).2
    have hbehind := h.steady.behind
    have hforth := h'.forth
    refine ⟨hspan.1, ?_, forall_mem_append.mpr ⟨fun d hd => ((hnests (h'.clean hc)).2 d hd).2.1, fun d hd => ?_⟩⟩
    · have : t.back ≤ u.back := hforth.2
      omega
    · have : t.front ≤ d.span.start.offset := ((h'.stand hc).2 d hd).2.1
      omega
  · have hspan := ((h.stand hc).2 c mem_cons_self).2
    refine ⟨(hnests hc).1, fun d hd => ?_⟩
    have hd := (hnests hc).2 d hd
    exact ⟨hd.1, by omega, hd.2.2.1, Int.le_trans hd.2.2.2 hspan.2.2⟩

/-! ### Parts -/

/-- The trees in what a reader gives. -/
class Bears (α : Type) where
  trees : α → List Twig

export Bears (trees)

instance : Bears Twig := ⟨([·])⟩

instance : Bears (Option Twig) := ⟨Option.toList⟩

instance : Bears (List Twig) := ⟨id⟩

instance : Bears Unit := ⟨fun _ => []⟩

instance : Bears Shape := ⟨fun _ => []⟩

@[simp, grind =]
theorem trees_tree (t : Twig) : trees t = [t] := rfl

@[simp, grind =]
theorem trees_some (t : Twig) : trees (some t) = [t] := rfl

@[simp, grind =]
theorem trees_none : trees (none : Option Twig) = [] := rfl

@[simp, grind =]
theorem toList_eq_trees (o : Option Twig) : o.toList = trees o := rfl

@[simp, grind =]
theorem trees_list (ts : List Twig) : trees ts = ts := rfl

@[simp, grind =]
theorem trees_unit (u : Unit) : trees u = [] := rfl

@[simp, grind =]
theorem trees_shape (s : Shape) : trees s = [] := rfl

/-- What a reader comes to that starts at `t`, where `acc` has been read since `s`: a word is taken if `T`
holds of its value, and `G` holds of that if there is nothing to remark on. -/
structure Ends [Bears α] (src : Source) (up : Nat) (s t : State) (acc : List Twig) (T G : α → Prop)
    (p : α × State) : Prop where
  reads : Reads src up s (acc ++ trees p.1) p.2
  rest : p.2.rest.length ≤ t.rest.length
  takes : T p.1 → p.2.rest.length < t.rest.length
  clean : p.2.Clean → t.Clean ∧ G p.1

def GoesBelow [Bears α] (src : Source) (up : Nat) (P : State → Prop) (r : Reader α) (T G : α → Prop) : Prop :=
  ∀ s, Reads src up s [] s → P s → Ends src up s s [] T G (read r s)

abbrev Goes [Bears α] (src : Source) (P : State → Prop) (r : Nat → Reader α) (T G : α → Prop) : Prop :=
  ∀ up, GoesBelow src up P (r up) T G

section

variable [Bears α] {P : State → Prop} {r : Reader α} {T G : α → Prop}

theorem GoesBelow.step (h : GoesBelow src up P r T G) (hr : Reads src up s acc t) (hp : P t) :
    Ends src up s t acc T G (read r t) := by
  have h := h t (.refl hr.steady) hp
  exact ⟨hr.trans h.reads, h.rest, h.takes, h.clean⟩

theorem Goes.mono {r : Nat → Reader α} {Q : State → Prop} (h : Goes src P r T G) (hq : ∀ s, Q s → P s) :
    Goes src Q r T G :=
  fun up s hs hp => h up s hs (hq s hp)

theorem Goes.weaken {r : Nat → Reader α} {H : α → Prop} (h : Goes src P r T G) (hg : ∀ a, G a → H a) :
    Goes src P r T H := fun up s hs hp =>
  have hr := h up s hs hp
  ⟨hr.reads, hr.rest, hr.takes, fun hc => ⟨(hr.clean hc).1, hg _ (hr.clean hc).2⟩⟩

grind_pattern GoesBelow.step => GoesBelow src up P r T G, Reads src up s acc t, read r t

attribute [grind →] Ends.reads Ends.rest Ends.clean
grind_pattern Ends.takes => Ends src up s t acc T G p

end

grind_pattern Reads.next => Reads src up s acc t, t.next
grind_pattern Reads.remark => Reads src up s acc t, read (remark span m) t
grind_pattern Reads.opened => Reads src up s [] s, s.opened
grind_pattern Reads.abandon => Reads src i s.opened [] t, Reads src up s [] s
grind_pattern Reads.node => Reads src s.arena.size s.opened ts t, closing ⟨s.arena.size, some up, start⟩ shape ts t

theorem Reads.pos (h : Reads src up s acc t) (hk : t.kindAt 0 ≠ .eof) : 0 < t.rest.length :=
  length_pos_iff.mpr (h.steady.ne_nil.mp hk)

grind_pattern Reads.pos => Reads src up s acc t, t.kindAt 0

theorem Reads.spot (h : Reads src up s acc t) : t.spot.Lies src := h.steady.spot

theorem Reads.lies (h : Reads src up s acc t) : (t.word 0).span.Lies src := (h.steady.word 0).1

grind_pattern Reads.spot => Reads src up s acc t, t.spot

theorem Reads.rest_le (h : Reads src up s acc t) : t.rest.length ≤ s.rest.length ∧ (t.Clean → s.Clean) :=
  ⟨h.rest, h.clean⟩

attribute [grind →] Reads.rest_le
attribute [grind =] append_eq_nil_iff

theorem Reads.eat (h : Reads src up s acc t) (hk : k ≠ .eof) : Reads src up s acc (read (eat k) t).2 ∧
    (read (Grammar.eat k) t).2.rest.length ≤ t.rest.length ∧ ((read (Grammar.eat k) t).2.Clean → t.Clean) ∧
    if t.kindAt 0 = k then (read (Grammar.eat k) t).1 ∧ (read (Grammar.eat k) t).2.rest.length < t.rest.length
    else (read (Grammar.eat k) t).1 = false ∧ (read (Grammar.eat k) t).2 = t := by
  simp [Grammar.eat]
  split <;> grind

grind_pattern Reads.eat => Reads src up s acc t, read (Grammar.eat k) t

theorem Reads.expect {what : Expected} (h : Reads src up s acc t) (hk : k ≠ .eof) :
    Reads src up s acc (read (expect k what) t).2 ∧ (read (Grammar.expect k what) t).2.rest.length ≤ t.rest.length ∧
    ((read (Grammar.expect k what) t).2.Clean → t.Clean ∧ (read (Grammar.expect k what) t).1) ∧
    (t.kindAt 0 = k → (read (Grammar.expect k what) t).2.rest.length < t.rest.length) := by
  simp [Grammar.expect]
  split <;> grind

grind_pattern Reads.expect => Reads src up s acc t, read (Grammar.expect k what) t

theorem Goes.required {P : State → Prop} {r : Nat → Reader (Option Twig)} {T : Option Twig → Prop}
    (h : Goes src P r T (Each G)) (what : Expected) : Goes src P (fun up => required what (r up)) T (One G) := by
  intro up s hs hp
  have hr := h up s hs hp
  simp only [Grammar.required, read_bind, read_ite, read_pure]
  cases ho : (read (r up) s).1 with
  | none => constructor <;> simp <;> grind
  | some t => constructor <;> simp <;> grind [One, Each]

@[simp, grind =]
theorem each_some {t : Twig} : Each G (some t) ↔ G t := by simp [Each]

@[simp, grind =]
theorem one_some {t : Twig} : One G (some t) ↔ G t := by simp [One]

@[simp, grind .]
theorem each_none : Each G none := nofun

@[grind →]
theorem One.trees_ne_nil (h : One G o) : trees o ≠ [] := by
  obtain ⟨t, rfl, -⟩ := h
  simp

@[grind →]
theorem One.isSome (h : One G o) : o.isSome := by
  obtain ⟨t, rfl, -⟩ := h
  rfl

abbrev Any (_ : State) : Prop := True

abbrev At (k : Token.Kind) (s : State) : Prop := s.kindAt 0 = k

abbrev Finds (src : Source) (P : State → Prop) (r : Nat → Reader (Option Twig)) (G : Tree → Prop) : Prop :=
  Goes src P r (fun o => o.isSome) (Each G)

abbrev Takes (src : Source) (P : State → Prop) (r : Nat → Reader Twig) (G : Tree → Prop) : Prop :=
  Goes src P r (fun _ => True) fun t => G t

abbrev Passes (src : Source) (P : State → Prop) (r : Nat → Reader (Option Twig)) (G : Option Twig → Prop) : Prop :=
  Goes src P r (fun _ => False) G

theorem tree_closed (b : Bud) (shape : Shape) (ts : List Twig) (s : State) :
    (closed b shape ts s).tree = .node shape (closed b shape ts s).span (ts.map Twig.tree) := by
  rw [← Twig.trees_eq]
  rfl

theorem proper_closed (h : Tree.Admits shape (ts.map Twig.tree)) (hc : ∀ c ∈ ts, c.tree.Proper) :
    (closed b shape ts s).tree.Proper := by
  rw [tree_closed]
  exact .node h (forall_mem_map.mpr hc)

@[simp, grind =]
theorem shape_closed (b : Bud) (shape : Shape) (ts : List Twig) : (closed b shape ts s).shape = shape := rfl

theorem Reads.proper_symbol (h : Reads src up s acc t) (hk : t.kindAt 0 = .symbol) :
    (closed b (.symbol (t.word 0)) [] u).tree.Proper :=
  proper_closed (.symbol (((h.steady.word 0).2 (by rw [← State.kindAt, hk]; decide)).name hk)) nofun

grind_pattern Reads.proper_symbol => Reads src up s acc t, closed b (.symbol (t.word 0)) [] u

attribute [grind] One IsName IsExpression IsMessage IsType Is IsMember IsTopLevel IsStatement IsDeclaration
attribute [grind =] Tree.isLeaf Tree.wrapsExpression Tree.wrapsSymbol Tree.isMember Tree.isTopLevel Tree.isStatement
  Shape.isSymbol Shape.isExpression Shape.isMessage Shape.isTypeExpression Shape.isPattern Shape.isOperator
  Shape.isClass Shape.isTypeParameter

theorem takes_symbol : Goes src (At .symbol) symbol (fun _ => True) (One IsName) := by
  intro up s hs hk
  simp [symbol, leaf, hk]
  constructor <;> grind

theorem finds_symbol : Finds src Any symbol IsName := by
  intro up s hs _
  simp [symbol, leaf]
  split <;> constructor <;> grind

/-! ### Loops -/

def looping (a : α) (step : α → Reader (ForInStep α)) (f : α → Reader β) : Reader β := loop a step >>= f

@[simp]
theorem loop_bind (a : α) (step : α → Reader (ForInStep α)) (f : α → Reader β) :
    loop a step >>= f = looping a step f := rfl

@[simp]
theorem map_loop (a : α) (step : α → Reader (ForInStep α)) (f : α → β) :
    f <$> loop a step = looping a step fun a => pure (f a) := rfl

@[simp]
theorem read_loop (a : α) (step : α → Reader (ForInStep α)) : read (loop a step) s = read (looping a step pure) s :=
  Prod.ext rfl rfl

/-- What a step of a loop comes to: one that asks for another has taken a word. -/
def Stays (I J : α → State → Prop) (t : State) (p : ForInStep α × State) : Prop :=
  match p.1 with
  | .done a => J a p.2
  | .yield a => I a p.2 ∧ p.2.rest.length < t.rest.length

@[simp, grind =]
theorem stays_done : Stays I J t (.done a, u) ↔ J a u := .rfl

@[simp, grind =]
theorem stays_yield : Stays I J t (.yield a, u) ↔ I a u ∧ u.rest.length < t.rest.length := .rfl

/-- A loop whose steps take words ends before its bound. -/
theorem read_looping {C : β × State → Prop} {step : α → Reader (ForInStep α)}
    {f : α → Reader β} (ha : I a s) (hstep : ∀ a t, I a t → Stays I J t (read (step a) t))
    (hf : ∀ a t, J a t → C (read (f a) t)) : C (read (looping a step f) s) := by
  have hiterate (fuel : Nat) : ∀ a t, I a t → t.rest.length < fuel →
      J (read (iterate step fuel a) t).1 (read (iterate step fuel a) t).2 := by
    induction fuel with
    | zero => exact fun _ _ _ h => absurd h (Nat.not_lt_zero _)
    | succ fuel ih => grind [iterate, read_bind]
  rw [looping, read_bind]
  exact hf _ _ (hiterate _ a s ha (Nat.lt_succ_self _))

/-- Trees of one kind, read since `s`. -/
def Lists (src : Source) (up : Nat) (s : State) (G : Tree → Prop) (ts : List Twig) (t : State) : Prop :=
  Reads src up s ts t ∧ (t.Clean → ∀ c ∈ ts, G c)

end Grammar

end Parlance
