import InverseTelecine.Proofs.Media.Pictures
import InverseTelecine.Restorer.Feed

namespace InverseTelecine

/-- One thing that passed between a restorer and its endpoints. -/
inductive Exchange where
  | granted (buffer : Picture)
  | denied (cause : MediaError)
  | handed (frame : Frame) (answer : Except FilterError Unit)

namespace Exchange

def Supplied (l : Layout) : Exchange → Prop
  | granted buffer => buffer.Fits l
  | _ => True

def Succeeds (l : Layout) : Exchange → Prop
  | granted buffer => buffer.Fits l
  | denied _ => False
  | handed _ answer => answer = .ok ()

theorem Succeeds.supplied {l : Layout} {x : Exchange} (h : x.Succeeds l) : x.Supplied l := by
  cases x with
  | granted buffer => exact h
  | denied cause => exact h.elim
  | handed frame answer => exact True.intro

def frame? : Exchange → Option Frame
  | handed frame _ => some frame
  | _ => none

def shown (exchanges : List Exchange) : List Visible :=
  (exchanges.filterMap frame?).map (·.picture.visible)

end Exchange

namespace Endpoints

variable {σ : Type}

/-- The same endpoints with a record of what passed. -/
def recorded (ends : Endpoints σ) : Endpoints (σ × List Exchange) where
  layout s := ends.layout s.1
  take s :=
    match ends.take s.1 with
    | (.ok buffer, next) => (.ok buffer, next, s.2 ++ [.granted buffer])
    | (.error cause, next) => (.error cause, next, s.2 ++ [.denied cause])
  push s frame :=
    let (answer, next) := ends.push s.1 frame
    (answer, next, s.2 ++ [.handed frame answer])

end Endpoints

def Emission.forget {σ : Type} (e : Emission (σ × List Exchange)) : Emission σ :=
  ⟨e.result, e.clock, e.state.1, e.events⟩

def Restorer.Outcome.forget {σ α : Type} (o : Outcome (σ × List Exchange) α) : Outcome σ α :=
  ⟨o.result, o.restorer, o.state.1, o.events⟩

theorem emit_recorded {σ : Type} (ends : Endpoints σ) (slot : Picture) (input : Frame) (clock : Clock)
    (s : σ × List Exchange) : (emit ends.recorded slot input clock s).forget = emit ends slot input clock s.1 := by
  simp only [emit, Endpoints.recorded]
  cases ends.take s.1 with
  | mk answer next =>
    cases answer with
    | error cause => rfl
    | ok buffer =>
      simp only
      cases (buffer.paste slot).picture with
      | error stop => rfl
      | ok picture => rfl

theorem Restorer.emitSlots_recorded (ends : Endpoints σ) (input : Frame) (slots : List Picture) (r : Restorer)
    (s : σ × List Exchange) :
    (emitSlots ends.recorded input slots r s).forget = emitSlots ends input slots r s.1 := by
  induction slots generalizing r s with
  | nil => rfl
  | cons slot slots ih =>
    have first := emit_recorded ends slot input r.clock s
    simp only [emitSlots, ← first]
    show Outcome.forget (match (emit ends.recorded slot input r.clock s).result with
      | .error stop => _
      | .ok _ => _) = _
    simp only [Emission.forget]
    cases (emit ends.recorded slot input r.clock s).result with
    | error stop => rfl
    | ok _ =>
      simp only [← ih]
      rfl

theorem Restorer.emitSlots_keeps {σ : Type} {ends : Endpoints σ} {inv : σ → Prop} {input : Frame} {slots : List Picture}
    (each : ∀ slot ∈ slots, ∀ clock s, inv s → inv (emit ends slot input clock s).state) (r : Restorer) {s : σ}
    (before : inv s) : inv (emitSlots ends input slots r s).state := by
  induction slots generalizing r s with
  | nil => exact before
  | cons slot slots ih =>
    rw [List.forall_mem_cons] at each
    have first := each.1 r.clock s before
    simp only [emitSlots]
    cases (emit ends slot input r.clock s).result with
    | error stop => exact first
    | ok _ => exact ih each.2 _ first

end InverseTelecine
