import Ownership.Proofs.Requirements

namespace Ownership

namespace Session

variable {s : Session} {p : Predicate} {places : List Place}

theorem eq_not_of_iff {b c : Bool} {P Q : Prop} (first : b = true ↔ P) (second : c = true ↔ Q)
    (complement : Q ↔ ¬ P) : c = !b := by
  rw [← first, ← second] at complement
  cases b <;> simpa using complement

theorem clear_own {t : Term} (own : p = .owned ∨ p = .lent) (bare : t.Bare) : s.Clear p t :=
  ⟨bare, fun depends => by rcases own with rfl | rfl <;> simp at depends⟩

theorem answers_own (env : Env) {t : Term} (bare : t.Bare) (own : p = .owned ∨ p = .lent) :
    ∃ b, s.Answers (.holds env p t) b ∧ (b = true ↔ s.Proves env p t) := ((clear_own own bare).answers env).1

/-- The negative test of copy is the complement of the positive one. Move is never both proved and refuted, and
one of them without `!`. The tests of owned and lent, which refute each other, do not both succeed if no
variable is assumed to be both, and one of them does if there are no variables. -/
theorem negative_tests_complement (types : s.BarePlaces places) (env : Env) {t : Term} (bare : t.Bare)
    (within : t.leases ⊆ places) :
    (∃ b, s.Answers (.holds env .copy t) b ∧ s.Answers (.refuted env .copy t) (!b)) ∧
    (∃ b c, s.Answers (.holds env .move t) b ∧ s.Answers (.refuted env .move t) c ∧
      ¬ (b = true ∧ c = true) ∧ (s.NeverFree t → c = !b)) ∧
    ∃ b c, s.Answers (.holds env .owned t) b ∧ s.Answers (.holds env .lent t) c ∧
      s.Answers (.refuted env .lent t) b ∧ s.Answers (.refuted env .owned t) c ∧
      ((∀ v, ¬ (env.assumes v .owned = true ∧ env.assumes v .lent = true)) → ¬ (b = true ∧ c = true)) ∧
      (t.hasVariable = false → c = !b) := by
  refine ⟨?_, ?_, ?_⟩
  · obtain ⟨⟨b, holds, tells⟩, c, refutes, tells'⟩ := (types.clear (p := .copy) bare within).answers env
    obtain rfl : c = !b :=
      eq_not_of_iff tells tells' (refutes_iff_not_proves types bare within (.inl rfl) nofun)
    exact ⟨b, holds, refutes⟩
  · obtain ⟨⟨b, holds, tells⟩, c, refutes, tells'⟩ := (types.clear (p := .move) bare within).answers env
    refine ⟨b, c, holds, refutes, fun ⟨proved, denied⟩ => ?_, fun free => ?_⟩
    · exact Refutes.not_proves (tells'.mp denied) (.inr rfl) (tells.mp proved)
    · have clean : s.Clean t := by
        cases t with
        | place _ => exact bare.elim
        | _ => exact free
      exact eq_not_of_iff tells tells' (refutes_iff_not_proves types bare within (.inr rfl) fun _ => clean)
  · obtain ⟨⟨b, owned, tells⟩, c', notOwned, crosswise'⟩ := (types.clear (p := .owned) bare within).answers env
    obtain ⟨⟨c, lent, tells'⟩, b', notLent, crosswise⟩ := (types.clear (p := .lent) bare within).answers env
    obtain rfl : b' = b := Bool.eq_iff_iff.mpr (crosswise.trans tells.symm)
    obtain rfl : c' = c := Bool.eq_iff_iff.mpr (crosswise'.trans tells'.symm)
    refine ⟨b', c', owned, lent, notLent, notOwned, fun apart ⟨one, other⟩ => ?_, fun closed => ?_⟩
    · exact (tells.mp one).not_lent apart (tells'.mp other)
    · exact eq_not_of_iff tells tells' (not_iff_comm.mp (owned_iff_not_lent bare closed).symm).symm

section Leasing

theorem negative_tests_complement_leasing :
    leasing.BarePlaces [.var owner, .var borrower] ∧
      leasing.NeverFree (.ty (point.leasedFrom (.var borrower))) ∧
      leasing.Answers (.refuted (.root []) .copy (.ty (point.leasedFrom (.var borrower)))) true ∧
      leasing.Answers (.refuted (.root []) .move (.ty (point.leasedFrom (.var borrower)))) false ∧
      leasing.Answers (.refuted (.root []) .owned (.ty (point.leasedFrom (.var borrower)))) true ∧
      leasing.Answers (.holds (.root []) .move (.ty .never)) false ∧
      leasing.Answers (.refuted (.root []) .move (.ty .never)) false := by
  have within : [Place.var borrower] ⊆ [.var owner, .var borrower] := List.subset_cons_self _ _
  obtain ⟨⟨b, copy, notCopy⟩, ⟨c, d, move, notMove, _, exact_⟩, _, l, _, lent, _, notOwned, _⟩ :=
    negative_tests_complement (t := .ty (point.leasedFrom (.var borrower))) leasing_barePlaces (.root [])
      ⟨trivial, trivial⟩ within
  obtain rfl : b = false := copy.unique ⟨leasing, 60, _, rfl, rfl, rfl, rfl⟩
  obtain rfl : c = true := move.unique ⟨leasing, 60, _, rfl, rfl, rfl, rfl⟩
  obtain rfl : l = true := lent.unique ⟨leasing, 60, _, rfl, rfl, rfl, rfl⟩
  obtain rfl : d = false := exact_ leasing_neverFree
  exact ⟨leasing_barePlaces, leasing_neverFree, notCopy, notMove, notOwned, ⟨leasing, 20, _, rfl, rfl, rfl, rfl⟩,
    ⟨leasing, 20, _, rfl, rfl, rfl, rfl⟩⟩

end Leasing

end Session

end Ownership
