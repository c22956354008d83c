import InverseTelecine.CommandLine.Session
import InverseTelecine.Proofs.CommandLine.Ending
import InverseTelecine.Proofs.PlanarVideo.Reading
import InverseTelecine.Proofs.Restorer.Logs
import InverseTelecine.Proofs.Restorer.Starting

namespace InverseTelecine

theorem Frame.unpadded_of_face {outs others : List Frame} (same : outs.map face = others.map face) :
    (outs.flatMap fun f => f.picture.unpadded) = others.flatMap fun f => f.picture.unpadded := by
  have rows : outs.map (·.picture.visible) = others.map (·.picture.visible) := by
    have looks := congrArg (List.map fun face : Look × Timestamp => face.1.rows) same
    rw [List.map_map, List.map_map] at looks
    exact looks
  have bytes := congrArg (List.flatMap fun v : Visible => v.flatMap fun rows => rows.flatMap Array.toList) rows
  simpa only [List.flatMap_map, ← Picture.unpadded_eq_visible] using bytes

theorem Pool.collecting_logs {memory : Memory} {l : Layout} {blank : Picture}
    (made : Picture.make memory l = .ok blank) :
    (supply memory).collecting.Logs l (fun s => s.1.Open l) Prod.snd fun f => [f] where
  grants := by
    intro s kept
    obtain ⟨buffer, next, granted, fits, after⟩ := (supply_reliable made).grants s.1 kept
    exact ⟨buffer, (next, s.2), by simp only [Supply.collecting, granted], fits, after, rfl⟩
  accepts := fun s frame kept _ => ⟨(s.1, s.2 ++ [frame]), rfl, kept, rfl⟩

namespace Restorer

def restored? (memory : Memory) (options : Options) (stream : InputStream) (frames : List Frame) : Option Restorer :=
  (startPooled memory options stream).result.toOption.map fun r =>
    (feedAll (Pool.supply memory).collecting r frames ((startPooled memory options stream).state, [])).restorer

end Restorer

namespace CommandLine

theorem Disk.put_of_fine {d : Disk} (fine : d.failure = none) (p : Picture) :
    ∃ waiting sent, d.put p =
      (.ok (), { d with written := d.written ++ p.unpadded, waiting, sent, pool := d.pool.giveBack p }) :=
  ⟨_, _, by rw [put, fine]⟩

theorem Disk.flushFailure_of_fine {d : Disk} (fine : d.failure = none) : d.flushFailure = none := by
  rw [flushFailure, fine, ite_self]

theorem Disk.endpoints_logs {memory : Memory} {l : Layout} {blank : Picture}
    (made : Picture.make memory l = .ok blank) :
    (endpoints memory).Logs l (fun d => d.pool.Open l ∧ d.failure = none) (fun d => d.written.toList)
      fun f => f.picture.unpadded where
  grants := by
    rintro d ⟨kept, fine⟩
    obtain ⟨buffer, next, granted, fits, after⟩ := (Pool.supply_reliable made).grants d.pool kept
    simp only [Pool.supply] at granted
    exact ⟨buffer, { d with pool := next }, by simp only [endpoints, supply, granted], fits, ⟨after, fine⟩, rfl⟩
  accepts := by
    rintro d frame ⟨kept, fine⟩ fits
    obtain ⟨waiting, sent, written⟩ := put_of_fine fine frame.picture
    exact ⟨_, written, ⟨Pool.giveBack_open kept fits, fine⟩, Array.toList_appendList⟩

theorem Disk.supply_reliable {memory : Memory} {l : Layout} {blank : Picture}
    (made : Picture.make memory l = .ok blank) :
    (supply memory).Reliable l fun d => (d.pool.Open l ∧ d.failure = none) ∧ d.written = #[] where
  grants := by
    rintro d ⟨⟨kept, fine⟩, new⟩
    obtain ⟨buffer, next, granted, fits, after⟩ := (Pool.supply_reliable made).grants d.pool kept
    simp only [Pool.supply] at granted
    exact ⟨buffer, { d with pool := next }, by simp only [supply, granted], fits, ⟨after, fine⟩, new⟩

variable {memory : Memory} {a : Arguments} {files : Files} {o : Options} {st : InputStream} {c : Cadence}
  {retiming : Retiming}

theorem size_pos_of_stream (described : stream a = .ok st) : 0 < st.layout.size := by
  simp only [stream, bind, Except.bind, pure, Except.pure] at described
  repeat' (split at described; · cases described)
  rename_i sized _ _ _
  cases described
  rw [not_or] at sized
  exact Layout.size_pos (Nat.pos_of_ne_zero sized.1) (Nat.pos_of_ne_zero sized.2)

theorem code_failure (mode : Presentation) (chain : Chain) : (failure mode chain).code = 1 := by
  cases mode <;> rfl

/-- The input opens as `source`, and the output is created and takes all bytes. -/
structure Files.Serve (files : Files) (a : Arguments) (source : Source) : Prop where
  input : files.input = some (.ok (.bytes source))
  free : files.outputExists = true → a.overwrite = true
  created : files.createFailure = none
  taken : files.writeFailure = none

/-- What the source has left once the output was created: nothing, if that is the same file. -/
def Files.left (files : Files) (source : Source) : Source := if files.sameFile then .ofBytes [] else source

theorem Files.Serve.run {source : Source} (h : files.Serve a source) (configured : options a = .ok o)
    (described : stream a = .ok st) :
    let done := transcribe memory o st (.bytes (files.left source)) none
    (CommandLine.run memory a files).written = some done.written.toList ∧
      match done.result with
      | .error (.error _) => (CommandLine.run memory a files).code = 1
      | .error (.fault _) => (CommandLine.run memory a files).code = 101
      | .ok r => (CommandLine.run memory a files).code = 0 ∧ (CommandLine.run memory a files).stderr = [] ∧
        (CommandLine.run memory a files).closing = closingLines a r := by
  have free : (files.outputExists && !a.overwrite) = false := by
    cases exists_ : files.outputExists with
    | false => rfl
    | true => rw [h.free exists_]; rfl
  have read : (if files.sameFile then (Input.bytes source).emptied else .bytes source) =
      .bytes (files.left source) := by
    rw [left]
    split <;> rfl
  simp only [CommandLine.run, h.input, free, runOn, configured, described, h.created, h.taken, read]
  cases (transcribe memory o st (.bytes (files.left source)) none).result with
  | error stop =>
    cases stop with
    | error chain => exact ⟨rfl, code_failure a.mode chain⟩
    | fault f => exact ⟨rfl, rfl⟩
  | ok r => exact ⟨rfl, rfl, rfl, rfl⟩

theorem Files.frames_left {files : Files} {source : Source} (steady : source.Steady) {l : Layout} (sized : 0 < l.size)
    {count : ℕ} (whole : source.bytes.length = count * l.size) (pace : Pace) :
    (Input.bytes (files.left source)).frames ⟨l, pace⟩ =
      (Frame.decode l pace.base 0 source.bytes (if files.sameFile then 0 else count), none) := by
  have read : ∀ {source : Source} {count : ℕ}, source.Steady → source.bytes.length = count * l.size →
      (Input.bytes source).frames ⟨l, pace⟩ = (Frame.decode l pace.base 0 source.bytes count, none) := by
    intro source count steady whole
    obtain ⟨left, read⟩ := FrameReader.frames_of_steady (r := .new source l pace.base) steady sized
    simp only [FrameReader.new, whole, Nat.mul_div_cancel _ sized, Nat.mul_mod_left, if_true] at read
    simp only [Input.frames, FrameReader.new, read]
  rw [left]
  split
  · exact read (Source.ofBytes_steady []) (Nat.zero_mul l.size).symm
  · exact read steady whole

section started

variable {blank : Picture} (accepted : o.cadence = .ok c)
  (derived : (Retiming.derive st.pace c.ratio).value = .ok retiming)
include accepted derived

theorem pipelines_agree (made : Picture.make memory st.layout = .ok blank) {source : Source} {frames : List Frame}
    (read : (Input.bytes source).frames st = (frames, none)) (fits : ∀ f ∈ frames, f.picture.Fits st.layout) :
    ∃ outs q r, (Restorer.restore memory o st frames).value = .ok outs ∧ Restorer.restored? memory o st frames = some q ∧
      (transcribe memory o st (.bytes source) none).result = .ok r ∧
      (transcribe memory o st (.bytes source) none).written.toList = outs.flatMap (fun f => f.picture.unpadded) ∧
      (∀ f ∈ outs, f.picture.Fits st.layout) ∧ r.tally = q.tally ∧ r.retiming = q.retiming ∧
      q.tally.accepted = frames.length ∧ q.tally.emitted = outs.length := by
  obtain ⟨q, started, new, kept⟩ : ∃ q, (Restorer.startPooled memory o st).result = .ok q ∧ q.Started o st ∧
      (Restorer.startPooled memory o st).state.Open st.layout :=
    Restorer.start_of_reliable rfl accepted derived (Pool.supply_reliable made) (Pool.empty_open _ _)
  obtain ⟨r, opened, other, fine, blank⟩ := Restorer.start_of_reliable (s := Disk.blank st.layout none) rfl accepted
    derived (Disk.supply_reliable made) ⟨⟨Pool.empty_open _ _, rfl⟩, rfl⟩
  have logs := Pool.collecting_logs made
  have diskLogs := Disk.endpoints_logs made
  obtain ⟨library, _⟩ := new.completes accepted derived logs fits (s := ((Restorer.startPooled memory o st).state, [])) kept
  obtain ⟨disk, last⟩ := other.completes accepted derived diskLogs fits fine
  obtain ⟨faces, tally⟩ := new.agrees other logs diskLogs fits (s := ((Restorer.startPooled memory o st).state, [])) kept fine
  have collected := library.log_eq
  have written := disk.log_eq
  have flushed := Disk.flushFailure_of_fine last.2
  simp only [List.nil_append, List.flatMap_singleton'] at collected
  rw [blank, List.nil_append, ← Frame.unpadded_of_face faces] at written
  refine ⟨_, _, _, ?_, ?_, ?_, ?_, library.fits, tally.symm, disk.retiming_eq.trans library.retiming_eq.symm,
    library.accepted, library.emitted⟩
  · simp only [Restorer.restore, started, library.result, Except.map, collected]
  · simp only [Restorer.restored?, started, Except.toOption, Option.map]
  · simp only [transcribe, opened, read, disk.result, flushed]
  · simp only [transcribe, opened, read, disk.result, flushed]
    exact written

theorem pipelines_denied {cause : MediaError} (denied : Picture.make memory st.layout = .error cause) (input : Input)
    (frames : List Frame) :
    (Restorer.restore memory o st frames).value = .error (.error (.noBuffer cause.message)) ∧
      (transcribe memory o st input none).result = .error (.error (FilterError.noBuffer cause.message).chain) ∧
      (transcribe memory o st input none).written = #[] := by
  have library : (Restorer.startPooled memory o st).result = .error (.error (.noBuffer cause.message)) := by
    apply Restorer.start_of_denied rfl accepted derived
    simp only [Pool.supply, Pool.take, Pool.empty, Pool.make, denied]
  have disk : (Restorer.start (Disk.supply memory) o st (Disk.blank st.layout none)).result =
      .error (.error (.noBuffer cause.message)) := by
    apply Restorer.start_of_denied rfl accepted derived
    simp only [Disk.supply, Disk.blank, Pool.take, Pool.empty, Pool.make, denied]
  refine ⟨?_, ?_, ?_⟩
  · simp only [Restorer.restore, library]
  · simp only [transcribe, disk, Stop.map]
  · simp only [transcribe, disk]

end started

theorem restore_nil {q : Restorer} (restored : Restorer.restored? memory o st [] = some q) :
    (Restorer.restore memory o st []).value = .ok [] ∧ q.tally = .zero := by
  unfold Restorer.restored? at restored
  cases opened : (Restorer.startPooled memory o st).result with
  | error stop =>
    rw [opened] at restored
    cases restored
  | ok r =>
    rw [opened] at restored
    obtain rfl : r = q := Option.some.inj restored
    obtain ⟨_, _, _, _, furnished⟩ := Restorer.start_eq_ok opened
    obtain ⟨donor, slots, rfl⟩ := Restorer.furnish_eq_ok furnished
    refine ⟨?_, rfl⟩
    simp only [Restorer.restore, opened]
    rfl

/-- For a file of `count` whole frames, the output is what the library restores from its frames, without padding,
and what is told at the end is what the library counted. An output that is the input's own file empties it before
anything is read. Where memory has no room for a picture neither starts. -/
theorem run_matches_library (configured : options a = .ok o) (described : stream a = .ok st)
    (accepted : o.cadence = .ok c) (derived : (Retiming.derive st.pace c.ratio).value = .ok retiming)
    {source : Source} (serve : files.Serve a source) (steady : source.Steady) {count : Nat}
    (whole : source.bytes.length = count * st.layout.size) :
    let came := if files.sameFile then 0 else count
    let frames := Frame.decode st.layout st.pace.base 0 source.bytes came
    let library := (Restorer.restore memory o st frames).value
    let report := run memory a files
    (∀ (folder : Folder) (name : String), folder.create a.output = .ok (.file name) →
        (folder.after a report).bytes? name = report.written) ∧
      match Picture.make memory st.layout with
      | .error cause =>
        library = .error (.error (.noBuffer cause.message)) ∧ report.code = 1 ∧ report.written = some []
      | .ok _ =>
        ∃ outs q, library = .ok outs ∧ Restorer.restored? memory o st frames = some q ∧
          report.written = some (outs.flatMap fun f => f.picture.unpadded) ∧ report.code = 0 ∧ report.stderr = [] ∧
          (∀ time, Ending a q.tally q.retiming.output time (report.closing (some time))) ∧
          q.tally.accepted = came ∧ q.tally.emitted = outs.length ∧
          q.tally.emitted = (outs.flatMap fun f => f.picture.unpadded).length / st.layout.size ∧
          (files.sameFile = true → outs = [] ∧ q.tally = .zero) := by
  intro came frames library report
  obtain ⟨written, ends⟩ := serve.run configured described
  refine ⟨?_, ?_⟩
  · intro folder name created
    simp only [Folder.after, show report.written = _ from written, created]
    exact Folder.bytes?_write folder name _
  · cases made : Picture.make memory st.layout with
    | error cause =>
      obtain ⟨failed, stopped, none⟩ := pipelines_denied accepted derived made (.bytes (files.left source)) frames
      rw [stopped] at ends
      rw [none] at written
      exact ⟨failed, ends, written⟩
    | ok blank =>
      have positive := size_pos_of_stream described
      obtain ⟨outs, q, r, restored, last, complete, bytes, fits, tally, retiming_eq, accepted, emitted⟩ :=
        pipelines_agree accepted derived made (Files.frames_left steady positive whole st.pace) Frame.decode_fits
      rw [complete] at ends
      obtain ⟨code, silent, closing⟩ := ends
      rw [bytes] at written
      refine ⟨outs, q, restored, last, written, code, silent, ?_, ?_, emitted, ?_, ?_⟩
      · intro time
        rw [closing, ← tally, ← retiming_eq]
        exact closingLines_ending a r time
      · exact accepted.trans (Frame.length_decode _ _ _ _ _)
      · rw [Frame.length_unpadded fits, Nat.mul_div_cancel _ positive, emitted]
      · intro same
        rw [if_pos same] at restored last
        obtain ⟨nothing, zero⟩ := restore_nil last
        exact ⟨Except.ok.inj (restored.symm.trans nothing), zero⟩

section columns

def columns : Source := ⟨[0, 1, 2, 3, 2, 5, 4, 7, 6, 7], [.upTo 1, .interrupted, .upTo 3]⟩

def Arguments.columns : Arguments :=
  ⟨"film.raw", "restored.raw", 1, 2, "gray8", "30", "top", "23", 0, none, false, .json⟩

def Files.columns : Files := ⟨some (.ok (.bytes CommandLine.columns)), false, false, none, none⟩

theorem columns_serve : Files.columns.Serve .columns columns := ⟨rfl, Bool.noConfusion, rfl, rfl⟩

theorem run_matches_library_columns :
    let frames := Frame.decode .column ⟨⟨1, 30⟩⟩ 0 columns.bytes 5
    let report := run .boundless .columns .columns
    report.written = some [0, 1, 2, 3, 4, 5, 6, 7] ∧
      report.closing (some ⟨"0.01", "0.0125"⟩) = [objectText ["\"type\":\"complete\"", "\"success\":true",
        "\"output_frame_rate\":\"24/1\"", "\"output_time_base\":\"1/24\"",
        "\"stats\":" ++ objectText ["\"frames_in\":5", "\"frames_out\":4", "\"frames_skipped\":0",
          "\"frames_buffered\":1", "\"cadence_drops\":0", "\"unpaired_fields\":0"],
        "\"elapsed_seconds\":0.0125"]] ∧
      ∃ (outs : List Frame) (q : Restorer), (Restorer.restore .boundless .default .columns frames).value = .ok outs ∧
        report.written = some (outs.flatMap fun f => f.picture.unpadded) ∧ report.code = 0 ∧
        (∀ time, Ending .columns q.tally q.retiming.output time (report.closing (some time))) ∧
        q.tally.accepted = 5 ∧ q.tally.emitted = outs.length := by
  intro frames report
  have configured : options .columns = .ok .default := rfl
  have described : stream .columns = .ok .columns := rfl
  have accepted : Options.default.cadence = .ok ⟨[2, 3], 0, 0, 0, 0, ⟨5, 4⟩, 0⟩ := rfl
  obtain ⟨retiming, derived⟩ : ∃ t, (Retiming.derive InputStream.columns.pace ⟨5, 4⟩).value = .ok t := ⟨_, rfl⟩
  have whole : columns.bytes.length = 5 * InputStream.columns.layout.size := rfl
  have made : Picture.make .boundless InputStream.columns.layout = .ok (.blank .column) := rfl
  obtain ⟨_, both⟩ :=
    run_matches_library configured described accepted derived columns_serve (by decide) whole
  rw [made] at both
  obtain ⟨outs, q, restored, _, written, code, _, closing, came, went, _⟩ := both
  exact ⟨by decide +kernel, by decide +kernel, outs, q, restored, written, code, closing, came, went⟩

/-- The library restores four pictures from a file that a run over the same file leaves empty. -/
theorem run_empties_its_input :
    let a : Arguments := { Arguments.columns with output := "film.raw", overwrite := true }
    let folder : Folder := ⟨[("film.raw", columns.bytes)]⟩
    let frames := Frame.decode .column ⟨⟨1, 30⟩⟩ 0 columns.bytes 5
    let restored := (Restorer.restore .boundless .default .columns frames).value.toOption
    let report := run .boundless a (folder.survey a)
    options a = .ok .default ∧ stream a = .ok .columns ∧ columns.bytes.length = 5 * Layout.column.size ∧
      restored.map (·.flatMap fun f => f.picture.unpadded) = some [0, 1, 2, 3, 4, 5, 6, 7] ∧
      report.code = 0 ∧ report.stderr = [] ∧ (folder.after a report).bytes? "film.raw" = some [] :=
  ⟨rfl, rfl, rfl, by decide +kernel, by decide +kernel, by decide +kernel, by decide +kernel⟩

end columns

end CommandLine

end InverseTelecine
