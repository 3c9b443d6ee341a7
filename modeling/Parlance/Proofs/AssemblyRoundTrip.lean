import Parlance.Proofs.AssemblyLines
/-!
A program written in assembly is read back. Each section knows the number of the section of its first lazy
value, which is larger than its own; the bodies of its other ones follow.
-/
open List hiding format

namespace Parlance

namespace Instruction

variable {i : Instruction}

/-! ### Sections -/

def bodies : List Instruction → List (List Instruction)
  | [] => []
  | loadLazy _ body :: is => body :: bodies is
  | _ :: is => bodies is

def label (n : Nat) : String := "lazy" ++ toString n

/-- The words of the lines of a section; lazy values are referred to by numbers from `next` on. -/
def lineWords (next : Nat) : List Instruction → List (List String)
  | [] => []
  | loadLazy arity _ :: is => [Op.loadLazy.name, toString arity.toNat, "@" ++ label next] :: lineWords (next + 1) is
  | i :: is => (i.op.name :: i.operandTexts) :: lineWords next is

theorem section_induction {motive : List Instruction → Prop} (nil : motive [])
    (lazy : ∀ arity body is, motive is → motive (loadLazy arity body :: is))
    (other : ∀ i is, i.op ≠ .loadLazy → motive is → motive (i :: is)) (is : List Instruction) : motive is := by
  induction is with
  | nil => exact nil
  | cons i is ih =>
    by_cases hl : i.op = .loadLazy
    · cases i with
      | loadLazy arity body => exact lazy arity body is ih
      | _ => cases hl
    · exact other i is hl ih

theorem bodies_other (h : i.op ≠ .loadLazy) (is : List Instruction) : bodies (i :: is) = bodies is := by
  cases i with
  | loadLazy => exact absurd rfl h
  | _ => rfl

theorem lineWords_other (h : i.op ≠ .loadLazy) (next : Nat) (is : List Instruction) :
    lineWords next (i :: is) = (i.op.name :: i.operandTexts) :: lineWords next is := by
  cases i with
  | loadLazy => exact absurd rfl h
  | _ => rfl

theorem sectionLines_other (h : i.op ≠ .loadLazy) (next : Nat) (indent : String)
    (is : List Instruction) : ∃ own below : String, (own = "" ∨ own = indent) ∧ (below = "  " ∨ below = own) ∧
      sectionLines next indent (i :: is) =
        ((own ++ words i.op.name i.operandTexts) :: (sectionLines next below is).1,
          (sectionLines next below is).2) := by
  refine ⟨if i.op == .endMethod then "" else indent,
    if i.op == .beginMethod then "  " else if i.op == .endMethod then "" else indent, ?_, ?_, ?_⟩
  · split <;> simp
  · split <;> simp
  · cases i with
    | loadLazy => exact absurd rfl h
    | _ => rfl

/-- The lines of a section hold its words, and what it refers to are the bodies of its lazy values. -/
theorem sectionLines_eq (next : Nat) {indent : String} (hi : indent = "" ∨ indent = "  ") (is : List Instruction) :
    (sectionLines next indent is).2 = bodies is ∧
      List.Forall₂ (fun ws text => Assembly.IsLine (ws.map Bytes.ofString) (Bytes.ofString text))
        (lineWords next is) (sectionLines next indent is).1 := by
  induction is using section_induction generalizing next indent with
  | nil => exact ⟨rfl, .nil⟩
  | lazy arity body is ih =>
    obtain ⟨hbodies, hlines⟩ := ih (next + 1) hi
    exact ⟨congrArg (body :: ·) hbodies, .cons (Assembly.isLine_words hi _ _) hlines⟩
  | other i is hl ih =>
    obtain ⟨own, below, hown, hbelow, heq⟩ := sectionLines_other hl next indent is
    have hown' : own = "" ∨ own = "  " := by rcases hown with rfl | rfl <;> simp [hi]
    have hbelow' : below = "" ∨ below = "  " := by rcases hbelow with rfl | rfl <;> simp [hown']
    obtain ⟨hbodies, hlines⟩ := ih next hbelow'
    rw [heq, bodies_other hl, lineWords_other hl]
    exact ⟨hbodies, .cons (Assembly.isLine_words hown' _ _) hlines⟩

theorem areSpeakable_cons {is : List Instruction} : areSpeakable (i :: is) ↔ i.isSpeakable ∧ areSpeakable is := by
  rw [areSpeakable, Bool.and_eq_true]

theorem areSpeakable_of_mem_bodies {is body : List Instruction} (h : areSpeakable is) (hb : body ∈ bodies is) :
    areSpeakable body := by
  induction is using section_induction with
  | nil => cases hb
  | lazy arity b is ih =>
    obtain ⟨hi, his⟩ := areSpeakable_cons.mp h
    rw [isSpeakable] at hi
    rcases mem_cons.mp hb with rfl | hb
    · exact hi
    · exact ih his hb
  | other i is hl ih =>
    rw [bodies_other hl] at hb
    exact ih (areSpeakable_cons.mp h).2 hb

/-! ### The order of sections -/

/-- How many sections the bodies take, with all that they refer to. -/
def sectionCount (waiting : List (List Instruction)) : Nat := (waiting.map fun body => laziesOf body + 1).sum

theorem sectionCount_bodies (is : List Instruction) : sectionCount (bodies is) = laziesOf is := by
  induction is using section_induction with
  | nil => rfl
  | lazy arity body is ih => grind [bodies, sectionCount, laziesOf, lazies]
  | other i is hl ih =>
    have hzero : lazies i = 0 := by
      cases i with
      | loadLazy => exact absurd rfl hl
      | _ => rfl
    rw [bodies_other hl, laziesOf, hzero, Nat.zero_add, ih]

abbrev Placed := List Instruction × Nat

def sectionText (n : Nat) (p : Placed) : List String := "" :: ("@" ++ label n ++ ":") :: (sectionLines p.2 "" p.1).1

/-- Each section among those from number `n` on is told apart from the sections of its lazy values, which
are among them in a row. -/
def Linked (n : Nat) (table : List Placed) : Prop :=
  ∀ k body first, table[k]? = some (body, first) →
    n + k < first ∧ first ≤ n + table.length ∧ bodies body <+: (table.map Prod.fst).drop (first - n)

/-- The sections that are written: the bodies that wait come first, and all that they lead to follow. -/
theorem pendingSections_eq {fuel : Nat} (n : Nat) {waiting : List (List Instruction)}
    (hfuel : sectionCount waiting = fuel) (hs : ∀ body ∈ waiting, areSpeakable body) : ∃ table : List Placed,
      pendingSections fuel n waiting = (table.zipIdx n).flatMap (fun p => sectionText p.2 p.1) ∧
      waiting <+: table.map Prod.fst ∧ Linked n table ∧ ∀ p ∈ table, areSpeakable p.1 := by
  induction fuel generalizing n waiting with
  | zero =>
    cases waiting with
    | nil => exact ⟨[], rfl, prefix_rfl, nofun, nofun⟩
    | cons body waiting => simp [sectionCount] at hfuel
  | succ fuel ih =>
    cases waiting with
    | nil => exact ⟨[], rfl, prefix_rfl, nofun, nofun⟩
    | cons body waiting =>
      obtain ⟨hbody, hwaiting⟩ := forall_mem_cons.mp hs
      have hcount : sectionCount (waiting ++ bodies body) = fuel := by
        have hsum := sectionCount_bodies body
        simp only [sectionCount, map_append, map_cons, sum_append, sum_cons] at hfuel hsum ⊢
        omega
      have hspeak : ∀ b ∈ waiting ++ bodies body, areSpeakable b := fun b hb =>
        (mem_append.mp hb).elim (hwaiting b) (areSpeakable_of_mem_bodies hbody)
      obtain ⟨table, htexts, hprefix, hlinked, hall⟩ := ih (n + 1) hcount hspeak
      obtain ⟨hbodies, -⟩ := sectionLines_eq (n + 1 + waiting.length) (.inl rfl) body
      have hlen := hprefix.length_le
      rw [length_append, length_map] at hlen
      refine ⟨(body, n + 1 + waiting.length) :: table, ?_, ?_, ?_, forall_mem_cons.mpr ⟨hbody, hall⟩⟩
      · rw [pendingSections, zipIdx_cons, flatMap_cons, ← htexts]
        simp only [hbodies]
        rfl
      · grind [prefix_append]
      · intro k b first hk
        cases k with
        | zero =>
          obtain ⟨rfl, rfl⟩ := Prod.mk.inj (Option.some.inj hk)
          refine ⟨by omega, by rw [length_cons]; omega, ?_⟩
          rw [show n + 1 + waiting.length - n = waiting.length + 1 by omega, map_cons, drop_succ_cons]
          have hdrop := hprefix.drop waiting.length
          rwa [drop_left] at hdrop
        | succ k =>
          obtain ⟨hlt, hle, hrow⟩ := hlinked k b first hk
          refine ⟨by omega, by rw [length_cons]; omega, ?_⟩
          rw [show first - n = first - (n + 1) + 1 by omega, map_cons, drop_succ_cons]
          exact hrow

end Instruction

namespace Assembly

variable {is : List Instruction} {k n : Nat} {known more : List Bytes} {own : List Line} {others : List Section}
  {table : List Placed}

open Instruction Utf8

/-! ### Names and labels -/

theorem mem_allOps (op : Op) : op ∈ Op.all := by
  cases op with
  | markClass m =>
    cases m with
    | int w => cases w <;> decide
    | _ => decide
  | constInt w => cases w <;> decide
  | _ => decide

theorem op_name (op : Op) : Op.ofName? op.name = some op := by
  have hall : ∀ op ∈ Op.all, Op.ofName? op.name = some op := by decide +kernel
  exact hall op (mem_allOps op)

theorem isWord_name (op : Op) : IsWord (Bytes.ofString op.name) ∧ label? (Bytes.ofString op.name) = none := by
  have hall : ∀ op ∈ Op.all, op.name.toList ≠ [] ∧ op.name.toList.all (fun c => decide (IsPlain c)) ∧
      label? (Bytes.ofString op.name) = none := by decide +kernel
  grind [mem_allOps, isWord_plain]

theorem label_injective {a b : Nat} (h : Bytes.ofString (label a) = Bytes.ofString (label b)) : a = b := by
  grind [ofString_injective, label, String.toList_append, append_cancel_left_eq, Spelling.worth_natural]

theorem ofString_label (n : Nat) : Bytes.ofString ("@" ++ label n) = 64 :: Bytes.ofString (label n) := by
  rw [ofString_append]
  rfl

theorem isWord_label (n : Nat) :
    IsWord (Bytes.ofString ("@" ++ label n)) ∧ IsWord (Bytes.ofString ("@" ++ label n ++ ":")) := by
  have htext : ("@" ++ label n).toList = "@lazy".toList ++ (toString n).toList := by simp [label]
  have hne : ("@" ++ label n).toList ≠ [] := by
    rw [htext]
    exact append_ne_nil_of_left_ne_nil (by decide) _
  have hplain : ∀ c ∈ ("@" ++ label n).toList, IsPlain c := by
    have hfront : ∀ c ∈ "@lazy".toList, IsPlain c := isPlain_of_all (by decide)
    rw [htext]
    exact fun c hc => (mem_append.mp hc).elim (hfront c) fun hc => isPlain_of_isDigit (Spelling.isDigit_natural hc)
  refine ⟨isWord_plain hne hplain, isWord_plain ?_ ?_⟩ <;> rw [String.toList_append]
  · exact append_ne_nil_of_left_ne_nil hne _
  · have hcolon : ∀ c ∈ ":".toList, IsPlain c := isPlain_of_all (by decide)
    grind

theorem label?_label (n : Nat) : label? (Bytes.ofString ("@" ++ label n ++ ":")) = some (Bytes.ofString (label n)) := by
  rw [ofString_append, ofString_label]
  have hcolon : Bytes.ofString ":" = [58] := rfl
  rw [hcolon, cons_append, label?]
  simp

/-! ### Lines in sections -/

def Line.words (l : Line) : List Bytes := l.head :: l.operands

def IsCode (ws : List Bytes) : Prop := (∀ w ∈ ws, IsWord w) ∧ ∃ w rest, ws = w :: rest ∧ label? w = none

theorem isCode_lineWords (h : areSpeakable is) (next : Nat) :
    ∀ ws ∈ lineWords next is, IsCode (ws.map Bytes.ofString) := by
  induction is using section_induction generalizing next with
  | nil => nofun
  | lazy arity body is ih =>
    obtain ⟨-, his⟩ := areSpeakable_cons.mp h
    obtain ⟨hname, hlabel⟩ := isWord_name .loadLazy
    refine forall_mem_cons.mpr ⟨⟨?_, _, _, rfl, hlabel⟩, ih his (next + 1)⟩
    grind [isWord_natural, isWord_label]
  | other i is hl ih =>
    obtain ⟨hi, his⟩ := areSpeakable_cons.mp h
    obtain ⟨hname, hlabel⟩ := isWord_name i.op
    rw [lineWords_other hl]
    refine forall_mem_cons.mpr ⟨⟨?_, _, _, rfl, hlabel⟩, ih his next⟩
    grind [isWord_operands]

theorem sections_code {line : Bytes} {ws : List Bytes} (hline : IsLine ws line) (hcode : IsCode ws)
    (h : sections (n + 1) known more = .ok (own, others)) :
    ∃ l : Line, l.words = ws ∧ sections n known (line :: more) = .ok (l :: own, others) := by
  obtain ⟨hwords, w, rest, rfl, hlabel⟩ := hcode
  refine ⟨⟨n, w, rest⟩, rfl, ?_⟩
  rw [sections, words_line hline hwords]
  simp only [hlabel, h]
  rfl

theorem sections_lines {wss : List (List Bytes)}
    {lines : List Bytes} (hlines : List.Forall₂ IsLine wss lines) (hcode : ∀ ws ∈ wss, IsCode ws)
    (h : sections (n + lines.length) known more = .ok (own, others)) :
    ∃ ls : List Line, ls.map Line.words = wss ∧ sections n known (lines ++ more) = .ok (ls ++ own, others) := by
  induction hlines generalizing n with
  | nil => exact ⟨[], rfl, h⟩
  | @cons ws line wss lines hline _ ih =>
    obtain ⟨hws, hwss⟩ := forall_mem_cons.mp hcode
    rw [length_cons, show n + (lines.length + 1) = n + 1 + lines.length by omega] at h
    obtain ⟨ls, hls, hrest⟩ := ih hwss h
    grind [sections_code]

theorem sections_label (hknown : Bytes.ofString (label k) ∉ known)
    (h : sections (n + 1) (Bytes.ofString (label k) :: known) more = .ok (own, others)) :
    sections n known (Bytes.ofString ("@" ++ label k ++ ":") :: more) =
      .ok ([], ⟨Bytes.ofString (label k), own⟩ :: others) := by
  have hline : IsLine [Bytes.ofString ("@" ++ label k ++ ":")] (Bytes.ofString ("@" ++ label k ++ ":")) :=
    ⟨0, by rw [intercalate_singleton]; rfl⟩
  have hwords := words_line hline (by simpa using (isWord_label k).2)
  have hnew : known.contains (Bytes.ofString (label k)) = false := by simpa using hknown
  simp_all [sections, label?_label]

def bodyWords (p : Placed) : List (List Bytes) := (lineWords p.2 p.1).map (List.map Bytes.ofString)

theorem sections_table
    (hs : ∀ p ∈ table, areSpeakable p.1) (hknown : ∀ l ∈ known, ∃ j < k, l = Bytes.ofString (label j)) :
    ∃ others : List Section,
      sections n known (((table.zipIdx k).flatMap fun p => sectionText p.2 p.1).map Bytes.ofString ++ [[]]) =
        .ok ([], others) ∧ others.map (fun s => (s.label, s.lines.map Line.words)) =
        (table.zipIdx k).map fun p => (Bytes.ofString (label p.2), bodyWords p.1) := by
  induction table generalizing n k known with
  | nil => exact ⟨[], rfl, rfl⟩
  | cons p table ih =>
    obtain ⟨hp, htable⟩ := forall_mem_cons.mp hs
    have hknown' : ∀ l ∈ Bytes.ofString (label k) :: known, ∃ j < k + 1, l = Bytes.ofString (label j) := by
      refine forall_mem_cons.mpr ⟨⟨k, by omega, rfl⟩, fun l hl => ?_⟩
      obtain ⟨j, hj, rfl⟩ := hknown l hl
      exact ⟨j, by omega, rfl⟩
    have hnew : Bytes.ofString (label k) ∉ known := fun hmem => by grind [label_injective]
    obtain ⟨-, hlines⟩ := sectionLines_eq p.2 (.inl rfl) p.1
    obtain ⟨others, hothers, hmap⟩ :=
      ih (n := n + 1 + 1 + ((sectionLines p.2 "" p.1).1.map Bytes.ofString).length) htable hknown'
    obtain ⟨ls, hls, hcode⟩ := sections_lines (forall₂_map_left_iff.mpr (forall₂_map_right_iff.mpr hlines))
      (forall_mem_map.mpr (isCode_lineWords hp p.2)) hothers
    rw [append_nil] at hcode
    refine ⟨⟨Bytes.ofString (label k), ls⟩ :: others, ?_, ?_⟩
    · rw [zipIdx_cons, flatMap_cons, map_append, append_assoc]
      exact sections_label (n := n + 1) hnew hcode
    · rw [zipIdx_cons, map_cons, map_cons, hmap, hls]
      rfl

/-! ### Bodies where they are referred to -/

/-- The sections that were read are those of the table, from number `k` on. -/
def Holds (others : List Section) (k : Nat) (table : List Placed) : Prop :=
  others.map (fun s => (s.label, s.lines.map Line.words)) =
    (table.zipIdx k).map fun p => (Bytes.ofString (label p.2), bodyWords p.1)

theorem Holds.find? (h : Holds others k table) {j : Nat} {p : Placed} (hp : table[j]? = some p) :
    ∃ s, others.find? (·.label == Bytes.ofString (label (k + j))) = some s ∧
      s.label = Bytes.ofString (label (k + j)) ∧ s.lines.map Line.words = bodyWords p := by
  induction table generalizing others k j with
  | nil => cases hp
  | cons q table ih =>
    cases others with
    | nil => cases h
    | cons s others =>
      rw [Holds, zipIdx_cons, map_cons, map_cons] at h
      obtain ⟨hs, hrest⟩ := List.cons.inj h
      obtain ⟨hlabel, hwords⟩ := Prod.mk.inj hs
      cases j with
      | zero => grind
      | succ j =>
        obtain ⟨t, hfind, ht⟩ := ih hrest hp
        grind [label_injective]

theorem getElem?_of_prefix_drop {body : List Instruction}
    {rest : List (List Instruction)} (h : body :: rest <+: (table.map Prod.fst).drop n) :
    (∃ first, table[n]? = some (body, first)) ∧ rest <+: (table.map Prod.fst).drop (n + 1) := by
  obtain ⟨more, hmore⟩ := h
  have hget : (table.map Prod.fst)[n]? = some body := by
    rw [← Nat.add_zero n, ← getElem?_drop, ← hmore]
    rfl
  rw [getElem?_map, Option.map_eq_some_iff] at hget
  obtain ⟨⟨body', first⟩, hp, rfl⟩ := hget
  refine ⟨⟨first, hp⟩, more, ?_⟩
  rw [← drop_drop, ← hmore]
  rfl

variable {others : List Section} {table : List Placed}

/-- Lines are read as the instructions they were written for, if the sections that led to them have lower
numbers than all that they refer to. -/
theorem assemble_eq (hothers : Holds others 1 table) (hlinked : Linked 1 table) {fuel first : Nat}
    {within : List Section} {lines : List Line} (hfuel : table.length + 2 ≤ fuel + first)
    (hpos : 1 ≤ first) (hfirst : first ≤ table.length + 1)
    (hwithin : ∀ s ∈ within, ∃ j < first, s.label = Bytes.ofString (label j))
    (hbodies : bodies is <+: (table.map Prod.fst).drop (first - 1))
    (hlines : lines.map Line.words = bodyWords (is, first)) (his : areSpeakable is) :
    assemble others fuel within lines = .ok is := by
  induction fuel generalizing first within is lines with
  | zero => omega
  | succ fuel ih =>
    rw [assemble]
    induction is using section_induction generalizing first lines with
    | nil =>
      rw [map_eq_nil_iff.mp hlines]
      rfl
    | lazy arity body is ihs =>
      obtain ⟨hbody, hrest⟩ := areSpeakable_cons.mp his
      rw [isSpeakable] at hbody
      obtain ⟨l, ls, rfl, hl, hls⟩ := map_eq_cons_iff.mp hlines
      obtain ⟨⟨child, hchild⟩, hprefix⟩ := getElem?_of_prefix_drop hbodies
      obtain ⟨hlt, hle, hrow⟩ := hlinked _ _ _ hchild
      obtain ⟨s, hfind, hlabel, hwords⟩ := hothers.find? hchild
      rw [show 1 + (first - 1) = first by omega] at hlt hfind hlabel
      obtain ⟨number, head, operands⟩ := l
      obtain ⟨rfl, rfl⟩ := List.cons.inj hl
      have hnew : (within.any (·.label == s.label)) = false := by
        rw [any_eq_false]
        intro t ht
        obtain ⟨j, hj, hjt⟩ := hwithin t ht
        rw [beq_iff_eq, hjt, hlabel]
        exact fun he => absurd (label_injective he) (by omega)
      have hwithin' : ∀ t ∈ s :: within, ∃ j < child, t.label = Bytes.ofString (label j) := by
        refine forall_mem_cons.mpr ⟨⟨first, hlt, hlabel⟩, fun t ht => ?_⟩
        obtain ⟨j, hj, hjt⟩ := hwithin t ht
        exact ⟨j, by omega, hjt⟩
      have hinner : assemble others fuel (s :: within) s.lines = .ok body :=
        ih (by omega) (by omega) (by omega) hwithin' hrow hwords hbody
      have hls' : ls.map Line.words = bodyWords (is, first + 1) := hls
      have hmore := ihs (by omega) (by omega) (by omega)
        (fun t ht => (hwithin t ht).imp fun j hj => ⟨by omega, hj.2⟩)
        (by rwa [show first + 1 - 1 = first - 1 + 1 by omega]) hls' hrest
      rw [mapM_cons, hmore]
      simp only [toString_ofString, op_name, map_cons, map_nil, instruction, index_text, ofString_label, hfind,
        hnew, hinner, Bool.false_eq_true, if_false]
      rfl
    | other i is hl ihs =>
      obtain ⟨hi, hrest⟩ := areSpeakable_cons.mp his
      rw [bodies_other hl] at hbodies
      rw [bodyWords, lineWords_other hl, map_cons] at hlines
      obtain ⟨l, ls, rfl, hl', hls⟩ := map_eq_cons_iff.mp hlines
      obtain ⟨number, head, operands⟩ := l
      obtain ⟨rfl, rfl⟩ := List.cons.inj hl'
      rw [mapM_cons, ihs hfuel hpos hfirst hwithin hbodies hls hrest]
      simp only [toString_ofString, op_name]
      rw [instruction_operands _ _ hi hl]
      rfl

/-! ### Programs -/

theorem pieces_lines {texts : List String} (h : ∀ t ∈ texts, 10 ∉ Bytes.ofString t) :
    pieces 10 (Bytes.ofString (String.join (texts.map (· ++ "\n")))) = texts.map Bytes.ofString ++ [[]] := by
  induction texts with
  | nil => rfl
  | cons t texts ih =>
    obtain ⟨ht, htexts⟩ := forall_mem_cons.mp h
    have hline : Bytes.ofString (String.join ((t :: texts).map (· ++ "\n"))) =
        Bytes.ofString t ++ 10 :: Bytes.ofString (String.join (texts.map (· ++ "\n"))) := by
      rw [map_cons, String.join_cons, ofString_append, ofString_append, append_assoc]
      rfl
    rw [hline, pieces_append ht, ih htexts]
    rfl

theorem newline_notMem_section (h : areSpeakable is) (next : Nat) :
    ∀ t ∈ (sectionLines next "" is).1, 10 ∉ Bytes.ofString t := by
  obtain ⟨-, hlines⟩ := sectionLines_eq next (.inl rfl) is
  have hcode := isCode_lineWords h next
  generalize (sectionLines next "" is).1 = texts at hlines ⊢
  generalize lineWords next is = wss at hlines hcode
  induction hlines with
  | nil => nofun
  | cons hline _ ih =>
    obtain ⟨hws, hwss⟩ := forall_mem_cons.mp hcode
    exact forall_mem_cons.mpr ⟨newline_notMem_line hline hws.1, ih hwss⟩

theorem newline_notMem_table (h : ∀ p ∈ table, areSpeakable p.1) (k : Nat) :
    ∀ t ∈ (table.zipIdx k).flatMap (fun p => sectionText p.2 p.1), 10 ∉ Bytes.ofString t := by
  intro t ht
  obtain ⟨⟨p, n⟩, hp, ht⟩ := mem_flatMap.mp ht
  have hp' : p ∈ table := fst_mem_of_mem_zipIdx hp
  rcases mem_cons.mp ht with rfl | ht
  · exact not_mem_nil
  rcases mem_cons.mp ht with rfl | ht
  · exact (isWord_label n).2.newline_notMem
  · exact newline_notMem_section (h p hp') p.2 t ht

/-- What was written in assembly is read back as it was, however deep its lazy values lie. -/
theorem parse_format {is : List Instruction} (h : areSpeakable is = true) :
    parse (Bytes.ofString (format is)) = .ok is ∧ sameAll is is = true := by
  refine ⟨?_, sameAll_self (areProper_of_areSpeakable h)⟩
  obtain ⟨hbodies, hlines⟩ := sectionLines_eq 1 (.inl rfl) is
  obtain ⟨table, htexts, hprefix, hlinked, hspeak⟩ := pendingSections_eq 1 (sectionCount_bodies is)
    fun body hb => areSpeakable_of_mem_bodies h hb
  have hformat : format is = String.join
      (((sectionLines 1 "" is).1 ++ (table.zipIdx 1).flatMap fun p => sectionText p.2 p.1).map (· ++ "\n")) := by
    rw [format, ← htexts, ← hbodies]
  have hnewline : ∀ t ∈ (sectionLines 1 "" is).1 ++ (table.zipIdx 1).flatMap (fun p => sectionText p.2 p.1),
      10 ∉ Bytes.ofString t := fun t ht =>
    (mem_append.mp ht).elim (newline_notMem_section h 1 t) (newline_notMem_table hspeak 1 t)
  obtain ⟨others, hothers, hholds⟩ :=
    sections_table (n := 1 + ((sectionLines 1 "" is).1.map Bytes.ofString).length) (k := 1) hspeak
      (forall_mem_nil _)
  obtain ⟨ls, hls, hmain⟩ := sections_lines (forall₂_map_left_iff.mpr (forall₂_map_right_iff.mpr hlines))
    (forall_mem_map.mpr (isCode_lineWords h 1)) hothers
  have hlength : others.length = table.length := by
    have hlen := congrArg List.length hholds
    rwa [length_map, length_map, length_zipIdx] at hlen
  rw [hformat, parse, pieces_lines hnewline, map_append, append_assoc, hmain, append_nil]
  have hfuel : table.length + 2 ≤ others.length + 1 + 1 := by omega
  exact assemble_eq hholds hlinked hfuel (le_refl 1) (by omega) (forall_mem_nil _) hprefix hls h

def nestedSample : List Instruction :=
  [.beginMethod 7 [0x22, 0x0a, 0xff, 0xc3, 0xa9],
    .loadLazy 1 [.loadLazy 2 [.constF64 0x3fb999999999999a, .returnLazy 2], .constCharacter 0x1f600, .returnLazy 1],
    .loadLazy 0 [.constFBig (-1 / 3), .constF32 0x80000000], .constInt .iBig (-300), .endMethod]

theorem parse_format_nestedSample : areSpeakable nestedSample = true ∧
    parse (Bytes.ofString (format nestedSample)) = .ok nestedSample ∧ sameAll nestedSample nestedSample = true :=
  ⟨by decide, parse_format (by decide)⟩

end Assembly

end Parlance
