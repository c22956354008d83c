import InverseTelecine.Restorer.Feed

namespace InverseTelecine.Restorer

structure Opening (σ : Type) where
  result : Except (Stop FilterError) Restorer
  state : σ
  events : List Event

def takeBuffer {σ : Type} (supply : Supply σ) (s : σ) : Except (Stop FilterError) Picture × σ :=
  match supply.take s with
  | (.error e, s) => (.error (.error (.noBuffer e.message)), s)
  | (.ok picture, s) => (.ok picture, s)

def fresh (options : Options) (stream : InputStream) (cadence : Cadence) (retiming : Retiming)
    (donor : Picture) (slots : List Picture) : Restorer :=
  ⟨options, stream, cadence, retiming, .empty donor, slots, 0, .new retiming, .zero⟩

/-- Takes the long-lived buffers: the donor's first, then those of the two slots. -/
def furnish {σ : Type} (supply : Supply σ) (options : Options) (stream : InputStream) (cadence : Cadence)
    (retiming : Retiming) (s : σ) : Except (Stop FilterError) Restorer × σ :=
  match takeBuffer supply s with
  | (.error stop, s) => (.error stop, s)
  | (.ok donor, s) =>
    match takeBuffer supply s with
    | (.error stop, s) => (.error stop, s)
    | (.ok first, s) =>
      match takeBuffer supply s with
      | (.error stop, s) => (.error stop, s)
      | (.ok second, s) => (.ok (fresh options stream cadence retiming donor [first, second]), s)

def start {σ : Type} (supply : Supply σ) (options : Options) (stream : InputStream) (s : σ) : Opening σ :=
  match options.cadence with
  | .error stop => ⟨.error stop, s, []⟩
  | .ok cadence =>
    match requireLayout stream.layout (supply.layout s) with
    | .error e => ⟨.error (.error e), s, []⟩
    | .ok () =>
      let derived := Retiming.derive stream.pace cadence.ratio
      let events := .cadenceChosen cadence :: derived.events
      match derived.value with
      | .error stop => ⟨.error stop, s, events⟩
      | .ok retiming =>
        let (result, s) := furnish supply options stream cadence retiming s
        ⟨result, s, events⟩

def ownPoolIdle : Nat := 4

def startPooled (memory : Memory) (options : Options) (stream : InputStream) : Opening Pool :=
  start (Pool.supply memory) options stream (Pool.empty stream.layout ownPoolIdle none)

def restore (memory : Memory) (options : Options) (stream : InputStream) (frames : List Frame) :
    Reported (Except (Stop FilterError) (List Frame)) :=
  let opening := startPooled memory options stream
  match opening.result with
  | .error stop => ⟨opening.events, .error stop⟩
  | .ok restorer =>
    let run := feedAll (Pool.supply memory).collecting restorer frames (opening.state, [])
    ⟨opening.events ++ run.events, run.result.map fun _ => run.state.2⟩

end InverseTelecine.Restorer
