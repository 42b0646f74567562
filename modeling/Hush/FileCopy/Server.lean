import Hush.FileCopy.Frames
import Hush.Lib.PostcardCrate

/-!
# The server's side of a copy

A request is served in the server's own process, or by a worker that runs as the user and
speaks to the server in frames of its own.
-/

namespace Hush.FileCopy
open Hush.Lib

/-- What a process sees of its user, its environment and the filesystem. -/
structure Process where
  isRoot : Bool
  currentUsername : String
  /-- The variable `HOME`. -/
  home : Option Path
  /-- The home directory in the user database. -/
  homeForUser : String → Except String (Option Path)
  isDir : Path → Bool
  symlinkMetadata : Path → Except String Unit

namespace Process

def needsPrivilegedWorker (p : Process) (user : String) : Bool :=
  p.isRoot && user != p.currentUsername

def homeDirForUser (p : Process) (user : String) : Path :=
  let switchingUser := p.isRoot && user != p.currentUsername
  match if switchingUser then none else p.home.filter (!·.isEmpty) with
  | some home => home
  | none =>
    match p.homeForUser user with
    | .ok (some home) => home
    | .ok none | .error _ => Path.ofString "/"

def resolveRemotePath (p : Process) (user path : String) : Path :=
  match path.toList with
  | '/' :: _ => Path.ofString path
  | ['~'] => (p.homeDirForUser user).join []
  | '~' :: '/' :: rest => (p.homeDirForUser user).join (Utf8.encode rest)
  | _ => (p.homeDirForUser user).join (Path.ofString path)

/-- The sources of a download, resolved; the first that is missing is reported. -/
def resolveEntries (p : Process) (user : String) :
    List FileCopyEntry → Except String (List FileCopyEntry)
  | [] => .ok []
  | entry :: rest =>
    let path := p.resolveRemotePath user entry.path
    match p.symlinkMetadata path with
    | .error err => .error s!"stat source `{path.display}`: {err}"
    | .ok () =>
      match p.resolveEntries user rest with
      | .error err => .error err
      | .ok rest => .ok ({ entry with path := path.display } :: rest)

end Process

/-- How the archive goes: received into a plan's directory, sent from its sources, and for a
worker copied to its input. -/
structure Transfer where
  receive : FileCopyPlan → Except String Unit
  send : List FileCopyEntry → Except String Unit
  copy : Except String Unit

structure Host where
  server : Process
  /-- A worker that has become the user and entered its home directory. -/
  worker : String → Except String Process

/-- The frames that have been written on the stream, and how the handler ends. -/
structure Handled where
  responses : List StreamResponse
  result : Except String Unit
  deriving Repr

section Served

variable [Postcard]

def writeCopyResult (written : List StreamResponse) (result : Except String Unit) : Handled :=
  let response : StreamResponse :=
    match result with
    | .ok () => .ok
    | .error err => .error err
  match writeFrame written response with
  | .error err => ⟨written, .error err⟩
  | .ok written => ⟨written, .ok ()⟩

def handleUploadDirect (p : Process) (user : String) (request : FileCopyRequest)
    (transfer : Transfer) : Handled :=
  let destination := p.resolveRemotePath user request.destination
  match planForDestination p.isDir destination request.entries with
  | .error err => writeCopyResult [] (.error err)
  | .ok plan =>
    match writeFrame [] (.fileCopyReady plan) with
    | .error err => ⟨[], .error err⟩
    | .ok written => writeCopyResult written (transfer.receive plan)

def handleDownloadDirect (p : Process) (user : String) (request : FileCopyRequest)
    (transfer : Transfer) : Handled :=
  match p.resolveEntries user request.entries with
  | .error err => writeCopyResult [] (.error err)
  | .ok entries =>
    match writeFrame [] (.fileCopyReady ⟨"", entries⟩) with
    | .error err => ⟨[], .error err⟩
    | .ok written => ⟨written, transfer.send entries⟩

/-- The frames that a worker writes, and how it exits. -/
structure WorkerRun where
  frames : List WorkerResponse
  exit : Except String Unit

def WorkerRun.write (run : WorkerRun) (value : WorkerResponse) : WorkerRun :=
  match writeWorkerFrame run.frames value with
  | .error err => { run with exit := .error err }
  | .ok frames => { run with frames }

def runWorker (p : Process) (request : FileCopyRequest) (transfer : Transfer) : WorkerRun :=
  let user := p.currentUsername
  match request.direction with
  | .upload =>
    let destination := p.resolveRemotePath user request.destination
    match planForDestination p.isDir destination request.entries with
    | .error err => WorkerRun.write ⟨[], .ok ()⟩ (.error err)
    | .ok plan =>
      match writeWorkerFrame [] (.ready plan) with
      | .error err => ⟨[], .error err⟩
      | .ok frames =>
        match transfer.receive plan with
        | .ok () => WorkerRun.write ⟨frames, .ok ()⟩ .complete
        | .error err => WorkerRun.write ⟨frames, .ok ()⟩ (.error err)
  | .download =>
    match p.resolveEntries user request.entries with
    | .error err => WorkerRun.write ⟨[], .ok ()⟩ (.error err)
    | .ok entries =>
      match writeWorkerFrame [] (.ready ⟨"", entries⟩) with
      | .error err => ⟨[], .error err⟩
      | .ok frames => ⟨frames, transfer.send entries⟩

/-- `spawn_worker`, and the worker up to its exit. One that does not get to its request
writes no frame. -/
def spawnWorker (host : Host) (user : String) (request : FileCopyRequest)
    (limits : FileCopyLimits) (transfer : Transfer) : Except String WorkerRun :=
  match host.server.homeForUser user with
  | .error err => .error err
  | .ok none => .error "unknown file-copy user"
  | .ok (some home) =>
    match checkWorkerFrame (WorkerRequest.encode ⟨request, limits⟩) with
    | .error err => .error err
    | .ok () =>
      match host.worker user with
      | .error err => .ok ⟨[], .error err⟩
      | .ok p => .ok (runWorker { p with home := some home } request transfer)

def earlyEof : String := "early eof"

def handleUploadWorker (host : Host) (user : String) (request : FileCopyRequest)
    (limits : FileCopyLimits) (transfer : Transfer) : Handled :=
  match spawnWorker host user request limits transfer with
  | .error err => ⟨[], .error err⟩
  | .ok worker =>
    match worker.frames with
    | [] => ⟨[], .error earlyEof⟩
    | .error err :: _ => writeCopyResult [] (.error err)
    | .complete :: _ => ⟨[], .error "file-copy worker completed before it was ready"⟩
    | .ready plan :: rest =>
      match writeFrame [] (.fileCopyReady plan) with
      | .error err => ⟨[], .error err⟩
      | .ok written =>
        match transfer.copy with
        | .error err => writeCopyResult written (.error err)
        | .ok () =>
          writeCopyResult written <|
            match rest with
            | .complete :: _ => worker.exit
            | .error err :: _ => .error err
            | .ready _ :: _ => .error "file-copy worker sent two plans"
            | [] => .error earlyEof

def handleDownloadWorker (host : Host) (user : String) (request : FileCopyRequest)
    (limits : FileCopyLimits) (transfer : Transfer) : Handled :=
  match spawnWorker host user request limits transfer with
  | .error err => ⟨[], .error err⟩
  | .ok worker =>
    match worker.frames with
    | [] => ⟨[], .error earlyEof⟩
    | .error err :: _ => writeCopyResult [] (.error err)
    | .complete :: _ => ⟨[], .error "file-copy worker completed before it was ready"⟩
    | .ready plan :: _ =>
      match writeFrame [] (.fileCopyReady plan) with
      | .error err => ⟨[], .error err⟩
      | .ok written =>
        match transfer.copy with
        | .error err => ⟨written, .error err⟩
        | .ok () => ⟨written, worker.exit⟩

def entryLimitMessage : String := "file copy exceeds the entry limit"

def handleUpload (host : Host) (user : String) (request : FileCopyRequest)
    (limits : FileCopyLimits) (transfer : Transfer) : Handled :=
  if limits.maxEntries.toNat < request.entries.length then
    writeCopyResult [] (.error entryLimitMessage)
  else if host.server.needsPrivilegedWorker user then
    handleUploadWorker host user request limits transfer
  else handleUploadDirect host.server user request transfer

def handleDownload (host : Host) (user : String) (request : FileCopyRequest)
    (limits : FileCopyLimits) (transfer : Transfer) : Handled :=
  if limits.maxEntries.toNat < request.entries.length then
    writeCopyResult [] (.error entryLimitMessage)
  else if host.server.needsPrivilegedWorker user then
    handleDownloadWorker host user request limits transfer
  else handleDownloadDirect host.server user request transfer

/-- The server's dispatch of `StreamOpen::FileCopy`. -/
def serveFileCopy (host : Host) (user : String) (request : FileCopyRequest)
    (limits : FileCopyLimits) (transfer : Transfer) : Handled :=
  match request.direction with
  | .upload => handleUpload host user request limits transfer
  | .download => handleDownload host user request limits transfer

end Served

/-- The reply that a request calls for: the plan with its paths resolved, or what is wrong. -/
def Process.reply (p : Process) (user : String) (request : FileCopyRequest) : WorkerResponse :=
  match request.direction with
  | .upload =>
    match planForDestination p.isDir (p.resolveRemotePath user request.destination)
        request.entries with
    | .error err => .error err
    | .ok plan => .ready plan
  | .download =>
    match p.resolveEntries user request.entries with
    | .error err => .error err
    | .ok entries => .ready ⟨"", entries⟩

section Answer

variable [Postcard] {host : Host} {user : String} {request : FileCopyRequest}
  {limits : FileCopyLimits} {transfer : Transfer} {p : Process}

theorem writeCopyResult_answers {written : List StreamResponse} {result : Except String Unit}
    (h : written ≠ []) : (writeCopyResult written result).responses ≠ [] := by
  unfold writeCopyResult
  simp only
  split
  · exact h
  · next written' hwrite =>
    rw [writeFrame_ok hwrite]
    simp

theorem writeCopyResult_error {err : String} :
    (writeCopyResult [] (.error err)).responses ≠ [] ↔ (StreamResponse.error err).Fits := by
  by_cases h : (StreamResponse.error err).Fits
  · simp [writeCopyResult, writeFrame_of_fits h, h]
  · obtain ⟨e, he⟩ := writeFrame_of_not_fits [] h
    simp [writeCopyResult, he, h]

/-- In its own process the server answers exactly if the reply fits a frame. -/
theorem direct_answers_iff (p : Process) (user : String) (request : FileCopyRequest)
    (transfer : Transfer) :
    (match request.direction with
      | .upload => handleUploadDirect p user request transfer
      | .download => handleDownloadDirect p user request transfer).responses ≠ [] ↔
    (p.reply user request).forward.Fits := by
  cases hd : request.direction with
  | upload =>
    simp only [handleUploadDirect, Process.reply, hd]
    cases planForDestination p.isDir (p.resolveRemotePath user request.destination)
      request.entries with
    | error err => exact writeCopyResult_error
    | ok plan =>
      simp only [WorkerResponse.forward]
      by_cases h : (StreamResponse.fileCopyReady plan).Fits
      · simp only [writeFrame_of_fits h, h, iff_true]
        exact writeCopyResult_answers (by simp)
      · obtain ⟨e, he⟩ := writeFrame_of_not_fits [] h
        simp [he, h]
  | download =>
    simp only [handleDownloadDirect, Process.reply, hd]
    cases p.resolveEntries user request.entries with
    | error err => exact writeCopyResult_error
    | ok entries =>
      simp only [WorkerResponse.forward]
      by_cases h : (StreamResponse.fileCopyReady ⟨"", entries⟩).Fits
      · simp [writeFrame_of_fits h, h]
      · obtain ⟨e, he⟩ := writeFrame_of_not_fits [] h
        simp [he, h]

theorem write_frames {run : WorkerRun} {value : WorkerResponse} :
    ∃ rest, (run.write value).frames = run.frames ++ rest := by
  unfold WorkerRun.write
  split
  · exact ⟨[], by simp⟩
  · next frames hwrite =>
    unfold writeWorkerFrame at hwrite
    split at hwrite
    · cases hwrite
    · cases hwrite
      exact ⟨[value], rfl⟩

theorem write_first {exit : Except String Unit} {value : WorkerResponse} :
    if value.forward.Fits then
      ∃ rest, (WorkerRun.write ⟨[], exit⟩ value).frames = value :: rest
    else (WorkerRun.write ⟨[], exit⟩ value).frames = [] := by
  split
  · next h => exact ⟨[], by simp [WorkerRun.write, writeWorkerFrame_of_fits h]⟩
  · next h =>
    obtain ⟨e, he⟩ := writeWorkerFrame_of_not_fits [] h
    simp [WorkerRun.write, he]

/-- An error that is the first frame is no plan. -/
theorem write_error_ne_ready {exit : Except String Unit} {err : String} {plan : FileCopyPlan}
    {rest : List WorkerResponse} :
    (WorkerRun.write ⟨[], exit⟩ (.error err)).frames ≠ .ready plan :: rest := by
  intro hframes
  have hfirst := @write_first _ exit (.error err)
  rw [hframes] at hfirst
  split at hfirst
  · obtain ⟨_, hfirst⟩ := hfirst
    cases hfirst
  · cases hfirst

/-- A worker's first frame is the reply, if it fits. -/
theorem runWorker_frames (p : Process) (request : FileCopyRequest) (transfer : Transfer) :
    if (p.reply p.currentUsername request).forward.Fits then
      ∃ rest, (runWorker p request transfer).frames = p.reply p.currentUsername request :: rest
    else (runWorker p request transfer).frames = [] := by
  cases hd : request.direction with
  | upload =>
    simp only [runWorker, Process.reply, hd]
    cases planForDestination p.isDir (p.resolveRemotePath p.currentUsername request.destination)
      request.entries with
    | error err => exact write_first
    | ok plan =>
      simp only
      split
      · next h =>
        simp only [writeWorkerFrame_of_fits h]
        cases transfer.receive plan with
        | ok => exact write_frames
        | error err => exact write_frames
      · next h =>
        obtain ⟨e, he⟩ := writeWorkerFrame_of_not_fits [] h
        simp only [he]
  | download =>
    simp only [runWorker, Process.reply, hd]
    cases p.resolveEntries p.currentUsername request.entries with
    | error err => exact write_first
    | ok entries =>
      simp only
      split
      · next h =>
        simp only [writeWorkerFrame_of_fits h]
        exact ⟨[], rfl⟩
      · next h =>
        obtain ⟨e, he⟩ := writeWorkerFrame_of_not_fits [] h
        simp only [he]

omit [Postcard] in
theorem reply_ne_complete : p.reply user request ≠ .complete := by
  unfold Process.reply
  split
  · split <;> nofun
  · split <;> nofun

/-- With a worker the server answers exactly if there is one that sends the reply. -/
theorem worker_answers_iff (host : Host) (user : String) (request : FileCopyRequest)
    (limits : FileCopyLimits) (transfer : Transfer) :
    (match request.direction with
      | .upload => handleUploadWorker host user request limits transfer
      | .download => handleDownloadWorker host user request limits transfer).responses ≠ [] ↔
    ∃ worker reply rest, spawnWorker host user request limits transfer = .ok worker ∧
      worker.frames = reply :: rest ∧ reply ≠ .complete ∧ reply.forward.Fits := by
  unfold handleUploadWorker handleDownloadWorker
  cases spawnWorker host user request limits transfer with
  | error err => cases request.direction <;> simp
  | ok worker =>
  cases hframes : worker.frames with
  | nil => cases request.direction <;> simp [hframes]
  | cons reply rest =>
  cases reply with
  | complete => cases request.direction <;> simp [hframes]
  | error err =>
    cases request.direction <;>
      simp [hframes, writeCopyResult_error, WorkerResponse.forward]
  | ready plan =>
    by_cases h : (StreamResponse.fileCopyReady plan).Fits
    · have hreply : ∃ w reply tail, Except.ok worker = (.ok w : Except String WorkerRun) ∧
          w.frames = reply :: tail ∧ reply ≠ .complete ∧ reply.forward.Fits :=
        ⟨worker, .ready plan, rest, rfl, hframes, by simp, h⟩
      simp only [hreply, iff_true]
      cases request.direction with
      | upload =>
        simp only [hframes, writeFrame_of_fits h]
        split
        · exact writeCopyResult_answers (by simp)
        · exact writeCopyResult_answers (by simp)
      | download =>
        simp only [hframes, writeFrame_of_fits h]
        split <;> simp
    · obtain ⟨e, he⟩ := writeFrame_of_not_fits [] h
      cases request.direction <;> simp [hframes, he, h, WorkerResponse.forward]

/-- There is such a worker exactly if the user is known, the request fits the worker's pipe,
the worker gets to it, and its reply fits. -/
theorem spawnWorker_reply_iff :
    (∃ worker reply rest, spawnWorker host user request limits transfer = .ok worker ∧
      worker.frames = reply :: rest ∧ reply ≠ .complete ∧ reply.forward.Fits) ↔
    ∃ home p, host.server.homeForUser user = .ok (some home) ∧
      (WorkerRequest.encode ⟨request, limits⟩).length ≤ workerFrameLimit ∧
      host.worker user = .ok p ∧
      (Process.reply { p with home := some home } p.currentUsername request).forward.Fits := by
  unfold spawnWorker checkWorkerFrame
  constructor
  · rintro ⟨worker, reply, rest, hspawn, hframes, _, hfits⟩
    split at hspawn
    · cases hspawn
    · cases hspawn
    · next home hhome =>
      split at hspawn
      · cases hspawn
      · next hcheck =>
        split at hcheck
        · cases hcheck
        · next hlen =>
          split at hspawn
          · cases hspawn
            cases hframes
          · next p hworker =>
            cases hspawn
            have hrun := runWorker_frames { p with home := some home } request transfer
            split at hrun
            · next h => exact ⟨home, p, hhome, Nat.not_lt.mp hlen, hworker, h⟩
            · rw [hrun] at hframes
              cases hframes
  · rintro ⟨home, p, hhome, hlen, hworker, hfits⟩
    have hrun := runWorker_frames { p with home := some home } request transfer
    rw [if_pos hfits] at hrun
    obtain ⟨rest, hframes⟩ := hrun
    refine ⟨_, _, rest, ?_, hframes, reply_ne_complete, hfits⟩
    simp only [hhome, if_neg (Nat.not_lt.mpr hlen), hworker]

theorem entryLimit_fits : (StreamResponse.error entryLimitMessage).Fits := by
  have hlen : (Path.ofString entryLimitMessage).length = 33 := by decide
  have hle := Postcard.length_varint_le 33
  have hone : (Postcard.varint 3).length = 1 := Postcard.length_varint_one (by decide)
  rw [StreamResponse.Fits, StreamResponse.encode, List.length_append, Postcard.length_str, hlen,
    hone, maxFrameLen]
  omega

end Answer

/-- A copy request is answered exactly if it has more entries than allowed, or the reply it
calls for fits a frame, and where a worker serves it the user is known, the request fits the
worker's pipe and the worker gets to it. -/
theorem copy_answered_iff [Postcard] (host : Host) (user : String) (request : FileCopyRequest)
    (limits : FileCopyLimits) (transfer : Transfer) :
    (serveFileCopy host user request limits transfer).responses ≠ [] ↔
      limits.maxEntries.toNat < request.entries.length ∨
      (host.server.needsPrivilegedWorker user = false ∧
        (host.server.reply user request).forward.Fits) ∨
      (host.server.needsPrivilegedWorker user = true ∧
        ∃ home p, host.server.homeForUser user = .ok (some home) ∧
          (WorkerRequest.encode ⟨request, limits⟩).length ≤ workerFrameLimit ∧
          host.worker user = .ok p ∧
          (Process.reply { p with home := some home } p.currentUsername
            request).forward.Fits) := by
  by_cases hentries : limits.maxEntries.toNat < request.entries.length
  · have hanswered := writeCopyResult_error.mpr entryLimit_fits
    unfold serveFileCopy handleUpload handleDownload
    simp only [hentries, true_or, iff_true]
    cases request.direction <;> exact hanswered
  · cases hworker : host.server.needsPrivilegedWorker user with
    | false =>
      have hdirect := direct_answers_iff host.server user request transfer
      unfold serveFileCopy handleUpload handleDownload
      simpa [hentries, hworker] using hdirect
    | true =>
      have hspawn := worker_answers_iff host user request limits transfer
      rw [spawnWorker_reply_iff] at hspawn
      unfold serveFileCopy handleUpload handleDownload
      simpa [hentries, hworker] using hspawn

namespace Unanswered

/-- A server that runs as alice, with everything in its place. -/
def alice : Process where
  isRoot := false
  currentUsername := "alice"
  home := some (.ofString "/home/alice")
  homeForUser := fun _ => .ok (some (.ofString "/home/alice"))
  isDir := fun _ => false
  symlinkMetadata := fun _ => .ok ()

def host : Host := ⟨alice, fun _ => .ok alice⟩

/-- One file, asked for `n` times. -/
def request (n : Nat) : FileCopyRequest := ⟨.download, List.replicate n ⟨"a", "a"⟩, "", .none⟩

def limits : FileCopyLimits := ⟨64 * 1024 * 1024 * 1024, 100000⟩

def transfer : Transfer := ⟨fun _ => .ok (), fun _ => .ok (), .ok ()⟩

theorem resolveEntries_replicate (n : Nat) :
    alice.resolveEntries "alice" (List.replicate n ⟨"a", "a"⟩) =
      .ok (List.replicate n ⟨"/home/alice/a", "a"⟩) := by
  have hpath : (alice.resolveRemotePath "alice" "a").display = "/home/alice/a" := by decide
  induction n with
  | zero => rfl
  | succ n ih =>
    simp only [List.replicate_succ, Process.resolveEntries, ih, hpath]
    rfl

theorem length_seq_replicate (n : Nat) (entry : FileCopyEntry) :
    (Postcard.seq FileCopyEntry.encode (List.replicate n entry)).length =
      (Postcard.varint n).length + n * entry.encode.length := by
  simp [Postcard.length_seq]

theorem length_request (n : Nat) :
    (request n).streamOpen.length = (Postcard.varint n).length + n * 4 + 4 := by
  have hentry : (FileCopyEntry.mk "a" "a").encode.length = 4 := by decide
  have hstr : (Postcard.str "").length = 1 := by decide
  simp only [FileCopyRequest.streamOpen, FileCopyRequest.encode, request, List.length_append,
    length_seq_replicate, hentry, hstr]
  show 1 + (1 + _ + 1 + 1) = _
  omega

theorem length_reply (n : Nat) :
    (alice.reply "alice" (request n)).forward.encode.length =
      (Postcard.varint n).length + n * 16 + 2 := by
  have hentry : (FileCopyEntry.mk "/home/alice/a" "a").encode.length = 16 := by decide
  have hstr : (Postcard.str "").length = 1 := by decide
  simp only [Process.reply, request, resolveEntries_replicate, WorkerResponse.forward,
    StreamResponse.encode, FileCopyPlan.encode, List.length_append, length_seq_replicate,
    hentry, hstr]
  show 1 + (1 + _) = _
  omega

theorem serve_direct {n : Nat} (h : n ≤ limits.maxEntries.toNat) :
    serveFileCopy host "alice" (request n) limits transfer =
      handleDownloadDirect alice "alice" (request n) transfer := by
  have hentries : ¬ limits.maxEntries.toNat < (request n).entries.length := by
    rw [request, List.length_replicate]
    omega
  have hworker : alice.needsPrivilegedWorker "alice" = false := rfl
  show handleDownload host "alice" (request n) limits transfer = _
  rw [handleDownload, if_neg hentries]
  simp only [host, hworker, Bool.false_eq_true, if_false]

end Unanswered

/-- Each path of the plan is longer than the one of the request by the home directory. With
a hundred thousand of them the request fits a frame and the plan does not, and nothing is
sent. -/
theorem large_download_unanswered :
    (Unanswered.request 100000).streamOpen.length ≤ maxFrameLen ∧
    (serveFileCopy Unanswered.host "alice" (Unanswered.request 100000) Unanswered.limits
      Unanswered.transfer).responses = [] := by
  have hvarint : (Postcard.varint 100000).length = 3 := by decide
  constructor
  · rw [Unanswered.length_request, hvarint, maxFrameLen]
    omega
  · have hfits : ¬ (Unanswered.alice.reply "alice" (Unanswered.request 100000)).forward.Fits := by
      rw [StreamResponse.Fits, Unanswered.length_reply, hvarint, maxFrameLen]
      omega
    rw [Unanswered.serve_direct (by decide)]
    exact not_not.mp ((direct_answers_iff Unanswered.alice "alice" (Unanswered.request 100000)
      Unanswered.transfer).not.mpr hfits)

end Hush.FileCopy
