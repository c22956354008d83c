import InverseTelecine.Options

namespace InverseTelecine.Options

variable {c : Options} {value : List Char} {e : FilterError}

theorem parse_parity_eq_error (failed : FieldParity.parse value = .error e) : e.isSetup = true := by
  unfold FieldParity.parse at failed
  simp only at failed
  split at failed
  · cases failed
  · split at failed <;> cases failed
    rfl

theorem readStart_eq_error (failed : readStart value = .error e) : e.isSetup = true := by
  unfold readStart at failed
  split at failed
  · cases failed
    rfl
  · split at failed <;> cases failed
    rfl

theorem assign_eq_error {key : List Char} (failed : c.assign key value = .error e) : e.isSetup = true := by
  unfold assign at failed
  split at failed
  · cases parsed : FieldParity.parse value with
    | ok p => rw [parsed] at failed; cases failed
    | error other => rw [parsed] at failed; cases failed; exact parse_parity_eq_error parsed
  · split at failed
    · cases failed
    · split at failed
      · cases read : readStart value with
        | ok n => rw [read] at failed; cases failed
        | error other => rw [read] at failed; cases failed; exact readStart_eq_error read
      · cases failed
        rfl

theorem assign_bind_eq_error {key : List Char} {f : Options → Except FilterError Options}
    (later : ∀ d, f d = .error e → e.isSetup = true) (failed : (do f (← c.assign key value)) = .error e) :
    e.isSetup = true := by
  cases set : c.assign key value with
  | error other => rw [set] at failed; cases failed; exact assign_eq_error set
  | ok d => rw [set] at failed; exact later d failed

theorem setParts_eq_error {names : Option (List (List Char))} {parts : List (List Char)}
    (failed : setParts c names parts = .error e) : e.isSetup = true := by
  induction parts generalizing c names with
  | nil => cases failed
  | cons part parts ih =>
    unfold setParts at failed
    split at failed
    · exact assign_bind_eq_error (fun d => ih) failed
    · split at failed
      · cases failed
        rfl
      · cases failed
        rfl
      · exact assign_bind_eq_error (fun d => ih) failed

theorem readDigits_eq_error {index : Nat} {chars : List Char} (failed : Cadence.readDigits index chars = .error e) :
    e.isSetup = true := by
  induction chars generalizing index with
  | nil => cases failed
  | cons ch chars ih =>
    unfold Cadence.readDigits at failed
    split at failed
    · cases others : Cadence.readDigits (index + 1) chars with
      | ok digits => rw [others] at failed; cases failed
      | error other => rw [others] at failed; cases failed; exact ih others
    · cases failed
      rfl

theorem cadence_eq_error (failed : c.cadence = .error (.error e)) : e.isSetup = true := by
  unfold cadence Cadence.parse at failed
  split at failed
  · cases failed
    rfl
  · split at failed
    · cases failed
      rfl
    · split at failed
      next read => cases failed; exact readDigits_eq_error read
      next =>
        split at failed
        · cases failed
        · split at failed
          · cases failed
            rfl
          · split at failed <;> cases failed

theorem parse_eq_error {s : String} (failed : parse s = .error (.error e)) : e.isSetup = true := by
  unfold parse at failed
  split at failed
  next other set =>
    cases failed
    exact setParts_eq_error set
  next c set =>
    split at failed
    next stop described =>
      cases failed
      exact cadence_eq_error described
    · cases failed

end InverseTelecine.Options
