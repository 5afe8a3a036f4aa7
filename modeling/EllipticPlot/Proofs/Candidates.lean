import EllipticPlot.GroupLaw.Candidate

/-!
# The choice between two candidates

Which of two candidates for a sum is taken depends on their residuals; that one of them is taken,
and none only where both are missing, does not.
-/

namespace EllipticPlot

namespace Sum

variable {α : Type} [Scalar α] {equation : Equation α} {first second : Option (Point α)}

theorem closer?_of_accepted {r : Point α}
    (h : Scalar.abs (equation.residual r) < acceptedResidual) :
    closer? equation (some r) second = some r := if_pos h

theorem closer?_eq_some {r : Point α} (h : closer? equation first second = some r) :
    first = some r ∨ second = some r := by
  unfold closer? at h
  split at h
  · exact .inr h
  · split at h
    · exact .inl h
    · split at h
      · exact .inl h
      · split at h
        · exact .inr h
        · exact .inl h

theorem closer?_eq_none (h : closer? equation first second = none) :
    first = none ∧ second = none := by
  unfold closer? at h
  split at h
  · exact ⟨rfl, h⟩
  · split at h
    · exact nomatch h
    · split at h
      · exact nomatch h
      · split at h
        · exact nomatch h
        · exact nomatch h

end Sum

end EllipticPlot
