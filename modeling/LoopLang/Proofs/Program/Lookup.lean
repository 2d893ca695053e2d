import LoopLang.Evaluation

set_option autoImplicit false

/-! # Functions by name

A program has no duplicate exactly if the names of its functions are pairwise distinct, and then a
look-up finds each function under its own name. Otherwise the duplicate that is found is the first
function with the name of an earlier one. -/

namespace LoopLang.Program

theorem firstDuplicate?_eq_none_iff {earlier : List String} {fs : List Function} :
    firstDuplicate? earlier fs = none ↔
      (fs.map Function.name).Nodup ∧ ∀ f ∈ fs, f.name ∉ earlier := by
  induction fs generalizing earlier with
  | nil => simp [firstDuplicate?]
  | cons f fs ih =>
    rw [firstDuplicate?]
    split
    · next seen => simp [seen]
    · next fresh =>
      rw [ih, List.map_cons, List.nodup_cons]
      simp only [List.mem_cons, List.mem_map, not_or, not_exists, not_and, forall_eq_or_imp]
      constructor
      · rintro ⟨nodup, apart⟩
        exact ⟨⟨fun g mem same => (apart g mem).1 same, nodup⟩, fresh,
          fun g mem => (apart g mem).2⟩
      · rintro ⟨⟨other, nodup⟩, -, apart⟩
        exact ⟨nodup, fun g mem => ⟨fun same => other g mem same, apart g mem⟩⟩

theorem duplicate?_eq_none_iff {p : Program} :
    p.duplicate? = none ↔ (p.functions.map Function.name).Nodup := by
  simp [duplicate?, firstDuplicate?_eq_none_iff]

theorem firstDuplicate?_eq_some_iff {earlier : List String} {fs : List Function} {f : Function} :
    firstDuplicate? earlier fs = some f ↔
      ∃ before after, fs = before ++ f :: after ∧ firstDuplicate? earlier before = none
        ∧ (f.name ∈ earlier ∨ f.name ∈ before.map Function.name) := by
  constructor
  · intro found
    induction fs generalizing earlier with
    | nil => cases found
    | cons g fs ih =>
      rw [firstDuplicate?] at found
      split at found
      · next again =>
        cases found
        exact ⟨[], fs, rfl, rfl, Or.inl again⟩
      · next fresh =>
        obtain ⟨before, after, rfl, clean, taken⟩ := ih found
        refine ⟨g :: before, after, rfl, by rw [firstDuplicate?, if_neg fresh, clean], ?_⟩
        simpa [or_assoc, or_left_comm] using taken
  · rintro ⟨before, after, rfl, clean, taken⟩
    induction before generalizing earlier with
    | nil =>
      have again : f.name ∈ earlier := taken.resolve_right List.not_mem_nil
      rw [List.nil_append, firstDuplicate?, if_pos again]
    | cons g before ih =>
      rw [firstDuplicate?] at clean
      split at clean
      · cases clean
      · next fresh =>
        rw [List.cons_append, firstDuplicate?, if_neg fresh]
        exact ih clean (by simpa [or_assoc, or_left_comm] using taken)

theorem lookup?_eq_some {p : Program} {name : String} {f : Function}
    (found : p.lookup? name = some f) : f ∈ p.functions ∧ f.name = name := by
  unfold lookup? at found
  exact ⟨List.mem_of_find?_eq_some found, by simpa using List.find?_some found⟩

theorem lookup?_eq_none_iff {p : Program} {name : String} :
    p.lookup? name = none ↔ ∀ f ∈ p.functions, f.name ≠ name := by
  simp [lookup?]

/-- Where names are distinct, a function is found under its own name. -/
theorem lookup?_name {p : Program} {f : Function}
    (distinct : (p.functions.map Function.name).Nodup) (mem : f ∈ p.functions) :
    p.lookup? f.name = some f := by
  unfold lookup?
  generalize p.functions = fs at distinct mem
  induction fs with
  | nil => simp at mem
  | cons g gs ih =>
    rw [List.map_cons, List.nodup_cons] at distinct
    rcases List.mem_cons.mp mem with rfl | mem
    · simp
    · have other : g.name ≠ f.name := fun same => distinct.1 (same ▸ List.mem_map_of_mem mem)
      rw [List.find?_cons_of_neg (by simpa using other)]
      exact ih distinct.2 mem

theorem lookup?_eq_some_iff {p : Program} {name : String} {f : Function}
    (distinct : (p.functions.map Function.name).Nodup) :
    p.lookup? name = some f ↔ f ∈ p.functions ∧ f.name = name := by
  refine ⟨lookup?_eq_some, ?_⟩
  rintro ⟨mem, rfl⟩
  exact lookup?_name distinct mem

end LoopLang.Program
