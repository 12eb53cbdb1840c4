import ShaderPass.TypeClass

/-! The numeric types that type names give: scalars, vectors with two to four components, and matrices
with two to four columns. -/
namespace ShaderPass.TypeClass

theorem bounds_of_dimension? {digits : Text} {n : Nat} (h : dimension? digits = some n) :
    2 ≤ n ∧ n ≤ 4 := by
  obtain ⟨-, bounds⟩ := Option.filter_eq_some_iff.1 h
  simpa only [Bool.and_eq_true, decide_eq_true_eq] using bounds

theorem bounds_of_vectorOf? {kind type : Text} {n : Nat} (h : vectorOf? kind type = some n) :
    2 ≤ n ∧ n ≤ 4 := by
  obtain ⟨_, -, found⟩ := Option.bind_eq_some_iff.1 h
  exact bounds_of_dimension? found

theorem bounds_of_matrix? {type : Text} {columns rows : Nat} (h : matrix? type = some (columns, rows)) :
    2 ≤ columns ∧ columns ≤ 4 := by
  unfold matrix? at h
  obtain ⟨dims, -, h⟩ := Option.bind_eq_some_iff.1 h
  split at h
  · obtain ⟨n, found, h⟩ := Option.bind_eq_some_iff.1 h
    obtain ⟨m, -, h⟩ := Option.bind_eq_some_iff.1 h
    cases h
    exact bounds_of_dimension? found
  · obtain ⟨n, found, h⟩ := Option.bind_eq_some_iff.1 h
    cases h
    exact bounds_of_dimension? found

theorem shape_of_ofText {type : Text} {t : NumericType} (h : ofText type = .numeric t) :
    (∃ n, 1 ≤ n ∧ n ≤ 4 ∧ t = .vector n) ∨
      ∃ columns rows, 2 ≤ columns ∧ columns ≤ 4 ∧ t = .matrix columns rows := by
  unfold ofText at h
  split at h
  · cases h
    exact Or.inl ⟨1, by decide, by decide, rfl⟩
  split at h
  · rename_i n found
    cases h
    obtain ⟨kind, -, vector⟩ := List.exists_of_findSome?_eq_some found
    have := bounds_of_vectorOf? vector
    exact Or.inl ⟨n, by omega, this.2, rfl⟩
  split at h
  · rename_i columns rows found
    cases h
    obtain ⟨least, most⟩ := bounds_of_matrix? found
    exact Or.inr ⟨columns, rows, least, most, rfl⟩
  · repeat (split at h; cases h)
    cases h

end ShaderPass.TypeClass
