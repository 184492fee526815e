import Qualify.Formula.Dimacs
import Qualify.Proofs.Weight

namespace Qualify

def Weight.ofNat? (n : Nat) : Option Weight := if n < 2 ^ 64 then some (UInt64.ofNat n) else none

theorem Weight.ofNat?_toNat (w : Weight) : ofNat? w.toNat = some w := by
  rw [ofNat?, if_pos w.toNat_lt, UInt64.ofNat_toNat]

namespace Wcnf

def readNat (word : List Char) : Option Nat :=
  if word ≠ [] ∧ word.all Char.isDigit then some (Nat.ofDigitChars 10 word 0) else none

def readInt : List Char → Option Int
  | '-' :: word => (readNat word).map fun n : Nat => -(n : Int)
  | word => (readNat word).map fun n : Nat => (n : Int)

def readLit (word : List Char) : Option Lit := (readInt word).bind Lit.ofInt?

def readClause : List (List Char) → Option Clause
  | [] => none
  | [word] => if readInt word = some 0 then some [] else none
  | word :: words => do return (← readLit word) :: (← readClause words)

def readLine (line : List Char) : Option (Nat × Clause) :=
  match line.splitOn ' ' with
  | [] => none
  | word :: words => do return (← readNat word, ← readClause words)

/-- The numbers of variables and of clauses, and the weight of a hard clause. -/
def readHeader (line : List Char) : Option (Nat × Nat × Nat) :=
  match line.splitOn ' ' with
  | [p, wcnf, vars, clauses, top] =>
    if p = "p".toList ∧ wcnf = "wcnf".toList then do
      return (← readNat vars, ← readNat clauses, ← readNat top)
    else none
  | _ => none

def softClause? (line : Nat × Clause) : Option SoftClause :=
  (Weight.ofNat? line.1).map fun weight => ⟨line.2, weight⟩

def classify (vars top : Nat) (lines : List (Nat × Clause)) : Option Cnf := do
  let soft ← (lines.filter (·.1 ≠ top)).mapM softClause?
  return ⟨vars, ((lines.filter (·.1 = top)).map (·.2)).toArray, soft.toArray⟩

/-- A problem in the classic weighted format. Every line has a line break at its end, and there are
as many clauses as the header says. -/
def read (text : String) : Option Cnf :=
  match text.toList.splitOn '\n' with
  | [] => none
  | header :: rest => do
    let (vars, clauses, top) ← readHeader header
    let lines ← rest.dropLast.mapM readLine
    if rest.getLast? = some [] ∧ lines.length = clauses then classify vars top lines else none

theorem isDigit_repr {n : Nat} {a : Char} (h : a ∈ (toString n).toList) : a.isDigit = true := by
  rw [Nat.toString_eq_repr, Nat.toList_repr] at h
  exact Nat.isDigit_of_mem_toDigits (by decide) (by decide) h

theorem readNat_repr (n : Nat) : readNat (toString n).toList = some n := by
  have hdigits : (toString n).toList.all Char.isDigit = true :=
    List.all_eq_true.mpr fun a => isDigit_repr
  have hne : (toString n).toList ≠ [] := by
    rw [Nat.toString_eq_repr, Nat.toList_repr]
    exact Nat.toDigits_ne_nil
  rw [readNat, if_pos ⟨hne, hdigits⟩, Nat.toString_eq_repr, Nat.toList_repr,
    Nat.ofDigitChars_ten_toDigits]

theorem readInt_of_isDigit {word : List Char} (h : ∀ a ∈ word, a.isDigit = true) :
    readInt word = (readNat word).map fun n : Nat => (n : Int) := by
  unfold readInt
  split
  · exact absurd (h '-' List.mem_cons_self) (by decide)
  · rfl

/-- The text of a number is its digits, or a sign and its digits. -/
theorem toList_toString_int (z : Int) :
    (toString z).toList = (toString z.natAbs).toList ∧ 0 ≤ z ∨
      (toString z).toList = '-' :: (toString z.natAbs).toList ∧ z < 0 := by
  rw [Int.toString_eq_repr, Int.repr_eq_if]
  split_ifs with h
  · left
    rw [Nat.toString_eq_repr, show z.toNat = z.natAbs by omega]
    exact ⟨rfl, h⟩
  · right
    rw [Nat.toString_eq_repr, show (-z).toNat = z.natAbs by omega, String.toList_append]
    exact ⟨rfl, by omega⟩

theorem readInt_repr (z : Int) : readInt (toString z).toList = some z := by
  obtain ⟨htext, hz⟩ | ⟨htext, hz⟩ := toList_toString_int z
  · rw [htext, readInt_of_isDigit fun a => isDigit_repr, readNat_repr, Option.map_some,
      Int.natAbs_of_nonneg hz]
  · rw [htext, readInt, readNat_repr, Option.map_some, Int.ofNat_natAbs_of_nonpos (by omega),
      neg_neg]

theorem readLit_repr (l : Lit) : readLit (toString l.signed).toList = some l := by
  rw [readLit, readInt_repr, Option.bind_some, Lit.ofInt?, dif_pos l.nonzero]

def IsInk (a : Char) : Prop := a ≠ ' ' ∧ a ≠ '\n'

theorem isInk_repr_nat (n : Nat) : ∀ a ∈ (toString n).toList, IsInk a := by
  intro a ha
  have hdigit := isDigit_repr ha
  constructor <;> rintro rfl <;> simp at hdigit

theorem isInk_repr_int (z : Int) : ∀ a ∈ (toString z).toList, IsInk a := by
  obtain ⟨htext, -⟩ | ⟨htext, -⟩ := toList_toString_int z
  · rw [htext]
    exact isInk_repr_nat _
  · rw [htext]
    exact List.forall_mem_cons.mpr ⟨by simp [IsInk], isInk_repr_nat _⟩

/-- Pieces that each end with a separator are found again, and so is what comes after them. -/
theorem splitOn_pieces {a : Char} {pieces : List (List Char)} {last : List Char}
    (h : ∀ piece ∈ pieces, a ∉ piece) (hlast : a ∉ last) :
    (pieces.flatMap (· ++ [a]) ++ last).splitOn a = pieces ++ [last] := by
  induction pieces with
  | nil => exact List.splitOn_eq_singleton hlast
  | cons piece pieces ih =>
    obtain ⟨hpiece, hpieces⟩ := List.forall_mem_cons.mp h
    rw [List.flatMap_cons, List.append_assoc, List.append_assoc, List.singleton_append,
      List.splitOn_append_cons_self_of_not_mem hpiece, ih hpieces, List.cons_append]

def words (w : Nat) (c : Clause) : List (List Char) :=
  (toString w).toList :: c.map fun l => (toString l.signed).toList

theorem isInk_words {w : Nat} {c : Clause} : ∀ word ∈ words w c, ∀ a ∈ word, IsInk a := by
  refine List.forall_mem_cons.mpr ⟨isInk_repr_nat _, ?_⟩
  rw [List.forall_mem_map]
  exact fun l _ => isInk_repr_int l.signed

def line (w : Nat) (c : Clause) : List Char := (words w c).flatMap (· ++ [' ']) ++ ['0']

theorem toList_weightedLine (w : Weight) (c : Clause) :
    (Cnf.weightedLine w c).toList = line w.toNat c ++ ['\n'] := by
  simp [Cnf.weightedLine, Clause.dimacs, line, words, String.toList_join, List.flatMap_map]

theorem readClause_words (c : Clause) :
    readClause ((c.map fun l => (toString l.signed).toList) ++ [['0']]) = some c := by
  induction c with
  | nil => decide
  | cons l c ih =>
    -- There is at least the zero left, so that the first word is not the last.
    obtain ⟨word, words, hwords⟩ : ∃ word words,
        (c.map fun l => (toString l.signed).toList) ++ [['0']] = word :: words :=
          List.exists_cons_of_ne_nil (by simp)
    rw [hwords] at ih
    rw [List.map_cons, List.cons_append, hwords, readClause, readLit_repr, ih]
    · rfl
    · exact List.cons_ne_nil _ _

theorem readLine_line (w : Nat) (c : Clause) : readLine (line w c) = some (w, c) := by
  have hsplit : (line w c).splitOn ' ' = words w c ++ [['0']] :=
    splitOn_pieces (fun word hword ha => (isInk_words word hword _ ha).1 rfl) (by decide)
  rw [readLine, hsplit, words, List.cons_append]
  simp only [readNat_repr, readClause_words]
  rfl

/-- Words and blanks between them stand on one line. -/
theorem newline_notMem {words : List (List Char)} {last : List Char}
    (h : ∀ word ∈ words, ∀ a ∈ word, IsInk a) (hlast : ∀ a ∈ last, IsInk a) :
    '\n' ∉ words.flatMap (· ++ [' ']) ++ last := by
  simp only [List.mem_append, List.mem_flatMap, List.mem_singleton]
  rintro (⟨word, hword, ha | ha⟩ | ha)
  · exact (h word hword _ ha).2 rfl
  · exact absurd ha (by decide)
  · exact (hlast _ ha).2 rfl

end Wcnf

namespace Cnf

open Wcnf

def headerWords (f : Cnf) : List (List Char) :=
  ["p".toList, "wcnf".toList, (toString f.numVars).toList,
    (toString (f.hard.size + f.soft.size)).toList]

theorem isInk_headerWords {f : Cnf} : ∀ word ∈ f.headerWords, ∀ a ∈ word, IsInk a := by
  simp only [headerWords, List.forall_mem_cons]
  exact ⟨by simp [IsInk], by simp [IsInk], isInk_repr_nat _, isInk_repr_nat _, by rintro _ ⟨⟩⟩

def header (f : Cnf) : List Char :=
  f.headerWords.flatMap (· ++ [' ']) ++ (toString f.hardWeight.toNat).toList

theorem readHeader_header (f : Cnf) :
    readHeader f.header = some (f.numVars, f.hard.size + f.soft.size, f.hardWeight.toNat) := by
  have hsplit : f.header.splitOn ' ' = f.headerWords ++ [(toString f.hardWeight.toNat).toList] :=
    splitOn_pieces (fun word hword ha => (isInk_headerWords word hword _ ha).1 rfl)
      fun ha => (isInk_repr_nat _ _ ha).1 rfl
  rw [readHeader, hsplit, headerWords]
  simp only [List.cons_append, List.nil_append, and_self, if_true, readNat_repr]
  rfl

def lines (f : Cnf) : List (Nat × Clause) :=
  f.hard.toList.map (fun c => (f.hardWeight.toNat, c)) ++
    f.soft.toList.map fun s => (s.weight.toNat, s.lits)

theorem toList_wcnf (f : Cnf) :
    f.wcnf.toList =
      (f.header :: f.lines.map fun e => line e.1 e.2).flatMap (· ++ ['\n']) ++ [] := by
  delta wcnf
  simp [header, headerWords, lines, String.toList_join, List.flatMap_map, toList_weightedLine]

/-- All lines are read, and what is left is to tell hard clauses from soft ones. -/
theorem read_wcnf_eq_classify (f : Cnf) :
    Wcnf.read f.wcnf = classify f.numVars f.hardWeight.toNat f.lines := by
  have hpieces : ∀ piece ∈ f.header :: f.lines.map fun e => line e.1 e.2, '\n' ∉ piece := by
    intro piece hpiece
    rcases List.mem_cons.mp hpiece with rfl | hpiece
    · exact newline_notMem isInk_headerWords (isInk_repr_nat _)
    · obtain ⟨e, -, rfl⟩ := List.mem_map.mp hpiece
      exact newline_notMem isInk_words (by simp [IsInk])
  have hsplit : f.wcnf.toList.splitOn '\n' = (f.header :: f.lines.map fun e => line e.1 e.2) ++
      [[]] := by
    rw [toList_wcnf]
    exact splitOn_pieces hpieces List.not_mem_nil
  have hlines : (f.lines.map fun e => line e.1 e.2).mapM readLine = some f.lines := by
    have hread : (readLine ∘ fun e : Nat × Clause => line e.1 e.2) = fun e => pure (id e) := by
      funext e
      rw [Function.comp_apply, readLine_line]
      rfl
    rw [List.mapM_map, hread, List.mapM_pure, List.map_id]
    rfl
  have hlength : f.lines.length = f.hard.size + f.soft.size := by simp [lines]
  rw [Wcnf.read, hsplit, List.cons_append]
  simp [readHeader_header, hlines, hlength]

/-- A soft clause is written with the weight of hard clauses exactly if its weight is the largest
word. -/
theorem weight_eq_hardWeight {f : Cnf} {s : SoftClause} (hs : s ∈ f.soft) :
    s.weight.toNat = f.hardWeight.toNat ↔ s.weight = Weight.cap := by
  have hcap : Weight.cap.toNat = 2 ^ 64 - 1 := rfl
  have hmem : s.weight.toNat ∈ f.soft.toList.map fun s => s.weight.toNat :=
    List.mem_map_of_mem (Array.mem_toList_iff.mpr hs)
  have hle : s.weight.toNat ≤ Weight.sum (f.soft.toList.map (·.weight)) := by
    rw [Weight.sum, List.map_map]
    exact List.single_le_sum (fun _ _ => Nat.zero_le _) _ hmem
  have hlt := s.weight.toNat_lt
  rw [← UInt64.toNat_inj, hcap, hardWeight, Weight.toNat_plus, totalSoftWeight, Weight.toNat_total,
    UInt64.toNat_one]
  omega

theorem filter_lines_eq (f : Cnf) :
    (f.lines.filter (·.1 = f.hardWeight.toNat)).map (·.2) =
      (f.hard ++ (f.soft.filter (·.weight = Weight.cap)).map (·.lits)).toList := by
  have hmarked : ∀ s ∈ f.soft.toList,
      decide (s.weight.toNat = f.hardWeight.toNat) = decide (s.weight = Weight.cap) :=
    fun s hs => decide_eq_decide.mpr (weight_eq_hardWeight (Array.mem_toList_iff.mp hs))
  simp [lines, List.filter_map, Function.comp_def, List.filter_congr hmarked]

theorem filter_lines_ne (f : Cnf) :
    (f.lines.filter (·.1 ≠ f.hardWeight.toNat)).mapM softClause? =
      some (f.soft.filter (·.weight ≠ Weight.cap)).toList := by
  have hmarked : ∀ s ∈ f.soft.toList,
      (!decide (s.weight.toNat = f.hardWeight.toNat)) = !decide (s.weight = Weight.cap) :=
    fun s hs =>
      congrArg _ (decide_eq_decide.mpr (weight_eq_hardWeight (Array.mem_toList_iff.mp hs)))
  have hsoft : f.lines.filter (·.1 ≠ f.hardWeight.toNat) =
      (f.soft.filter (·.weight ≠ Weight.cap)).toList.map fun s => (s.weight.toNat, s.lits) := by
    simp [lines, List.filter_map, Function.comp_def, List.filter_congr hmarked]
  have hread : (softClause? ∘ fun s : SoftClause => (s.weight.toNat, s.lits)) =
      fun s => pure (id s) := by
    funext s
    rw [Function.comp_apply, softClause?, Weight.ofNat?_toNat]
    rfl
  rw [hsoft, List.mapM_map, hread, List.mapM_pure, List.map_id]
  rfl

theorem read_wcnf (f : Cnf) :
    Wcnf.read f.wcnf = some
      { numVars := f.numVars
        hard := f.hard ++ (f.soft.filter (·.weight = Weight.cap)).map (·.lits)
        soft := f.soft.filter (·.weight ≠ Weight.cap) } := by
  rw [read_wcnf_eq_classify, classify, filter_lines_ne, filter_lines_eq]
  rfl

/-- From the text of a problem one reads its variables, its hard clauses and then its soft clauses,
each in order, but a soft clause of the largest weight is read as hard. So a problem is read back
exactly if it has no such clause. -/
theorem wcnf_separates (f : Cnf) :
    Wcnf.read f.wcnf = some
        { numVars := f.numVars
          hard := f.hard ++ (f.soft.filter (·.weight = Weight.cap)).map (·.lits)
          soft := f.soft.filter (·.weight ≠ Weight.cap) } ∧
      (Wcnf.read f.wcnf = some f ↔ ∀ s ∈ f.soft, s.weight ≠ Weight.cap) := by
  refine ⟨f.read_wcnf, ?_⟩
  rw [read_wcnf, Option.some.injEq]
  constructor
  · intro h s hs
    have hsoft : f.soft.filter (·.weight ≠ Weight.cap) = f.soft := congrArg Cnf.soft h
    rw [← hsoft] at hs
    simpa using (Array.mem_filter.mp hs).2
  · intro h
    have hkept : f.soft.filter (·.weight ≠ Weight.cap) = f.soft := by
      simpa [Array.filter_eq_self] using h
    have hnone : f.soft.filter (·.weight = Weight.cap) = #[] := by
      simpa [Array.filter_eq_empty_iff] using h
    rw [hkept, hnone]
    simp

/-- A hard clause and a wish against it, which has the largest weight. -/
def overweight : Cnf where
  numVars := 1
  hard := #[[Var.pos ⟨1, Nat.one_pos⟩]]
  soft := #[⟨[Var.neg ⟨1, Nat.one_pos⟩], Weight.cap⟩]

/-- What is read has no solution, although the problem has one. -/
theorem wish_read_as_hard :
    Wcnf.read overweight.wcnf =
      some ⟨1, #[[Var.pos ⟨1, Nat.one_pos⟩], [Var.neg ⟨1, Nat.one_pos⟩]], #[]⟩ ∧
      Wcnf.read overweight.wcnf ≠ some overweight := by
  have hread : Wcnf.read overweight.wcnf =
      some ⟨1, #[[Var.pos ⟨1, Nat.one_pos⟩], [Var.neg ⟨1, Nat.one_pos⟩]], #[]⟩ := by
    rw [read_wcnf]
    simp [overweight]
  rw [hread]
  exact ⟨rfl, by simp [overweight]⟩

end Cnf

end Qualify
