namespace Qualify

/-- The first name that occurs for the second time, or that was seen before. -/
def repeated? (seen : List String) : List String → Option String
  | [] => none
  | name :: names => if seen.contains name then some name else repeated? (name :: seen) names

theorem repeated?_eq_none {seen names : List String} :
    repeated? seen names = none ↔ names.Nodup ∧ ∀ name ∈ names, name ∉ seen := by
  induction names generalizing seen with
  | nil => simp [repeated?]
  | cons name names ih =>
    rw [repeated?]
    split
    case isTrue h =>
      have hmem := List.contains_iff_mem.mp h
      simp [hmem]
    case isFalse h =>
      have hmem := mt List.contains_iff_mem.mpr h
      rw [ih, List.nodup_cons, List.forall_mem_cons]
      simp only [List.mem_cons, not_or]
      constructor
      · rintro ⟨hnodup, hnames⟩
        exact ⟨⟨fun hname => (hnames name hname).1 rfl, hnodup⟩, hmem, fun x hx => (hnames x hx).2⟩
      · rintro ⟨⟨hname, hnodup⟩, -, hnames⟩
        refine ⟨hnodup, fun x hx => ⟨?_, hnames x hx⟩⟩
        rintro rfl
        exact hname hx

end Qualify
