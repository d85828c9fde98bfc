import MarginAccount.Proofs.Fault
import MarginAccount.Time

/-! # Where the clock stops

Times are taken apart once, here: which durations there are, and between which instants. The
difference of two instants goes wrong in two ways. It may take more than 64 bits, or it may be the one
number of 64 bits that is not a duration.
-/

namespace MarginAccount

variable {d : Duration} {n : ℤ} {now earlier : Timestamp} {f : Fault}

namespace Duration

theorem inRange_iff : inRange n = true ↔ FitsWord n ∧ n ≠ -2 ^ 63 := by
  rw [inRange, decide_eq_true_eq, FitsWord]
  omega

theorem ofMilliseconds_eq_ok : ofMilliseconds n = .ok d ↔ inRange n = true ∧ d = ⟨n⟩ :=
  ite_error_eq_ok

theorem ofSeconds_eq_ok : ofSeconds n = .ok d ↔ inRange (1000 * n) = true ∧ d = ⟨1000 * n⟩ :=
  ite_error_eq_ok

theorem ofSeconds_eq_error :
    ofSeconds n = .error f ↔ inRange (1000 * n) = false ∧ f = .secondsOutOfBounds := by
  rw [ofSeconds, ite_error_eq_error, Bool.not_eq_true]

theorem sub_eq_ok {a b : Duration} :
    a.sub b = .ok d ↔ inRange (a.milliseconds - b.milliseconds) = true ∧
      d = ⟨a.milliseconds - b.milliseconds⟩ :=
  ite_error_eq_ok

theorem sub_eq_error {a b : Duration} :
    a.sub b = .error f ↔ inRange (a.milliseconds - b.milliseconds) = false ∧
      f = .durationSubtraction := by
  rw [sub, ite_error_eq_error, Bool.not_eq_true]

end Duration

namespace Timestamp

theorem since_eq_ok : now.since earlier = .ok d ↔
    Duration.inRange (now.milliseconds - earlier.milliseconds) = true ∧
      d = ⟨now.milliseconds - earlier.milliseconds⟩ := by
  rw [since]
  split
  · exact Duration.ofMilliseconds_eq_ok
  · rename_i hword
    exact iff_of_false nofun fun h ↦ hword (Duration.inRange_iff.1 h.1).1

/-- The two ways in which a difference goes wrong. -/
theorem since_eq_error : now.since earlier = .error f ↔
    (¬FitsWord (now.milliseconds - earlier.milliseconds) ∧ f = .wordSubtraction) ∨
      (now.milliseconds - earlier.milliseconds = -2 ^ 63 ∧ f = .millisecondsOutOfBounds) := by
  rw [since]
  split
  · rename_i hword
    rw [Duration.ofMilliseconds, ite_error_eq_error, Duration.inRange_iff]
    simp [hword]
  · rename_i hword
    constructor
    · rintro ⟨⟩
      exact .inl ⟨hword, rfl⟩
    · rintro (⟨-, rfl⟩ | ⟨hleast, -⟩)
      · rfl
      · rw [hleast] at hword
        exact absurd (by decide) hword

end Timestamp

end MarginAccount
