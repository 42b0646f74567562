import Hush.FileCopy.RoundTrip
import Hush.FileCopy.Serving

/-!
# A copy between a client and a server

The two ends together: the request and the plan, the archive, and what the client reports.
-/

namespace Hush.FileCopy
open Hush.Lib

/-- Why an upload fails. -/
inductive UploadError
  | frameTooLarge (bytes : Nat)
  | refused (err : String)
  | archive (err : String)
  | stream (err : String)
  | noResponse (err : FrameError)
  | unexpected (response : StreamResponse)
  deriving DecidableEq, Repr

def expectOk : Except FrameError StreamResponse → Except UploadError Unit
  | .error err => .error (.noResponse err)
  | .ok .ok => .ok ()
  | .ok (.error err) => .error (.refused err)
  | .ok response => .error (.unexpected response)

/-- A server of uploads: its answer to a request, and the one after the archive that it reads
then. -/
structure UploadServer where
  ready : FileCopyRequest → Except FrameError StreamResponse
  finished : FileCopyRequest → Stream → Except FrameError StreamResponse

/-- `upload`, once it is connected. The stream can break while the archive is sent. -/
inductive Uploads [Postcard] (tar : TarLib) (zstd : Zstd) (fs : Fs) (limits : FileCopyLimits)
    (server : UploadServer) (request : FileCopyRequest) : Except UploadError Unit → Prop
  | oversized (h : maxFrameLen < request.streamOpen.length) :
      Uploads tar zstd fs limits server request (.error (.frameTooLarge request.streamOpen.length))
  | unready {err : String} (hframe : request.streamOpen.length ≤ maxFrameLen)
      (hready : expectCopyReady (server.ready request) = .error err) :
      Uploads tar zstd fs limits server request (.error (.refused err))
  | badPlan {plan : FileCopyPlan} {err : String}
      (hframe : request.streamOpen.length ≤ maxFrameLen)
      (hready : expectCopyReady (server.ready request) = .ok plan)
      (hplan : validateUploadPlan request.entries plan = .error err) :
      Uploads tar zstd fs limits server request (.error (.refused err))
  | unsent {plan : FileCopyPlan} {sent : Sent} {err : String}
      (hframe : request.streamOpen.length ≤ maxFrameLen)
      (hready : expectCopyReady (server.ready request) = .ok plan)
      (hplan : validateUploadPlan request.entries plan = .ok ())
      (hsent : SendsArchive tar fs limits plan.entries sent) (herr : sent.result = .error err) :
      Uploads tar zstd fs limits server request (.error (.archive err))
  | broken {plan : FileCopyPlan} (err : String)
      (hframe : request.streamOpen.length ≤ maxFrameLen)
      (hready : expectCopyReady (server.ready request) = .ok plan)
      (hplan : validateUploadPlan request.entries plan = .ok ()) :
      Uploads tar zstd fs limits server request (.error (.stream err))
  | answered {plan : FileCopyPlan} {sent : Sent}
      (hframe : request.streamOpen.length ≤ maxFrameLen)
      (hready : expectCopyReady (server.ready request) = .ok plan)
      (hplan : validateUploadPlan request.entries plan = .ok ())
      (hsent : SendsArchive tar fs limits plan.entries sent) (hok : sent.result = .ok ()) :
      Uploads tar zstd fs limits server request
        (expectOk (server.finished request
          ⟨archiveWriter zstd request.compression sent.writes.flatten, none⟩))

/-- The frame that is read after so many others. -/
def responseAt (responses : List StreamResponse) (i : Nat) : Except FrameError StreamResponse :=
  match responses[i]? with
  | some response => .ok response
  | none => .error .unexpectedEof

/-- How a failure is reported to the client: `{err:#}`. -/
def Failure.report (destination : String) : Failure → String
  | .refused err => err
  | .disabled => disabledMessage
  | .budget err => s!"extract archive into `{destination}`: {err}"
  | .iterate err => s!"extract archive into `{destination}`: iterate over archive: {err}"
  | .io err => s!"extract archive into `{destination}`: {err}"

/-- The transfer of an upload: the stream is unpacked into the plan's directory. For a worker it
is copied to its input first, which can fail. -/
def Transfer.unpacking (tar : TarLib) (zstd : Zstd) (d : Destination) (limits : FileCopyLimits)
    (copy : Except String Unit) (request : FileCopyRequest) (stream : Stream) : Transfer where
  receive := fun plan =>
    match (receiveArchive tar zstd d stream (.ofString plan.extractDir) request.compression
      limits).result with
    | .ok () => .ok ()
    | .error err => .error (err.report plan.extractDir)
  send := fun _ => .ok ()
  copy := copy

/-- This program's server; `d` is the filesystem as the user sees it. -/
def Host.uploads [Postcard] (host : Host) (tar : TarLib) (zstd : Zstd) (d : Destination)
    (copy : Except String Unit) (user : String) (limits : FileCopyLimits) : UploadServer where
  ready := fun request =>
    responseAt (serveFileCopy host user request limits
      (.unpacking tar zstd d limits copy request ⟨[], none⟩)).responses 0
  finished := fun request stream =>
    responseAt (serveFileCopy host user request limits
      (.unpacking tar zstd d limits copy request stream)).responses 1

theorem responseAt_ok {responses : List StreamResponse} {response : StreamResponse}
    {i : Nat} (h : responseAt responses i = .ok response) : responses[i]? = some response := by
  unfold responseAt at h
  split at h
  · next response' hget =>
    cases h
    exact hget
  · cases h

theorem expectOk_ok {answer : Except FrameError StreamResponse} (h : expectOk answer = .ok ()) :
    answer = .ok .ok := by
  cases answer with
  | error err => cases h
  | ok response =>
    cases response with
    | ok => rfl
    | sessionReady | fileCopyReady | error => cases h

theorem expectCopyReady_ok {answer : Except FrameError StreamResponse} {plan : FileCopyPlan}
    (h : expectCopyReady answer = .ok plan) : answer = .ok (.fileCopyReady plan) := by
  cases answer with
  | error err => cases err <;> cases h
  | ok response =>
    cases response with
    | fileCopyReady plan' =>
      cases h
      rfl
    | ok | sessionReady | error => cases h

section Server

variable [Postcard] {host : Host} {user : String} {request : FileCopyRequest}
  {limits : FileCopyLimits} {transfer transfer' : Transfer} {plan : FileCopyPlan}

theorem writeCopyResult_nil (result : Except String Unit) :
    (writeCopyResult [] result).responses[1]? = none := by
  unfold writeCopyResult
  simp only
  split
  · rfl
  · next written hwrite =>
    rw [writeFrame_ok hwrite]
    rfl

theorem writeCopyResult_second {result : Except String Unit}
    (h : (writeCopyResult [response] result).responses[1]? = some .ok) : result = .ok () := by
  cases result with
  | ok => rfl
  | error err =>
    exfalso
    unfold writeCopyResult at h
    simp only at h
    split at h
    · cases h
    · next written hwrite =>
      rw [writeFrame_ok hwrite] at h
      cases h

theorem writeCopyResult_first (result : Except String Unit) :
    (writeCopyResult [response] result).responses[0]? = some response := by
  unfold writeCopyResult
  simp only
  split
  · rfl
  · next written hwrite =>
    rw [writeFrame_ok hwrite]
    rfl

/-- What the first two answers to an upload say: the first one is the same whatever comes then,
and if the second one reports success the archive has been received. -/
structure FirstAnswers (host : Host) (user : String) (request : FileCopyRequest)
    (answers : Transfer → Handled) : Prop where
  first : ∀ transfer transfer',
    (answers transfer).responses[0]? = (answers transfer').responses[0]?
  second : ∀ transfer, (answers transfer).responses[1]? = some .ok →
    ∃ p name plan, host.ServedBy user p name ∧
      planForDestination p.isDir (p.resolveRemotePath name request.destination) request.entries =
        .ok plan ∧
      (answers transfer).responses[0]? = some (.fileCopyReady plan) ∧
      transfer.receive plan = .ok ()

omit [Postcard] in
/-- An answer that does not depend on the archive, with none after it. -/
theorem FirstAnswers.of_const {handled : Handled} (h : handled.responses[1]? = none) :
    FirstAnswers host user request fun _ => handled := by
  refine ⟨fun _ _ => rfl, fun _ hsecond => ?_⟩
  rw [h] at hsecond
  cases hsecond

theorem FirstAnswers.of_result {p : Process} {name : String}
    (result : Transfer → Except String Unit) (hserved : host.ServedBy user p name)
    (hplan : planForDestination p.isDir (p.resolveRemotePath name request.destination)
      request.entries = .ok plan)
    (hresult : ∀ transfer, result transfer = .ok () → transfer.receive plan = .ok ()) :
    FirstAnswers host user request fun transfer =>
      writeCopyResult [.fileCopyReady plan] (result transfer) := by
  refine ⟨fun _ _ => ?_, fun transfer hsecond => ?_⟩
  · rw [writeCopyResult_first, writeCopyResult_first]
  · exact ⟨p, name, plan, hserved, hplan, writeCopyResult_first _,
      hresult transfer (writeCopyResult_second hsecond)⟩

theorem handleUploadDirect_answers (h : host.server.needsPrivilegedWorker user = false) :
    FirstAnswers host user request (handleUploadDirect host.server user request) := by
  unfold handleUploadDirect
  simp only
  split
  · exact .of_const (writeCopyResult_nil _)
  · next plan hplan =>
    split
    · exact .of_const rfl
    · next written hwrite =>
      obtain rfl : written = [.fileCopyReady plan] := writeFrame_ok hwrite
      exact .of_result _ (.server h) hplan fun _ => id

/-- What the server makes of the frames that a worker has written after its plan. -/
def afterPlan (worker : WorkerRun) (rest : List WorkerResponse) : Except String Unit :=
  match rest with
  | .complete :: _ => worker.exit
  | .error err :: _ => .error err
  | .ready _ :: _ => .error "file-copy worker sent two plans"
  | [] => .error earlyEof

theorem complete_fits : WorkerResponse.complete.forward.Fits := by
  rw [StreamResponse.Fits, length_forward, WorkerResponse.encode,
    Postcard.length_varint_one (by decide)]
  decide

/-- A worker with a plan reports it, and success only for an archive that it has received. -/
theorem runWorker_plan {p : Process} (hd : request.direction = .upload)
    (hplan : planForDestination p.isDir (p.resolveRemotePath p.currentUsername request.destination)
      request.entries = .ok plan) (hfits : (StreamResponse.fileCopyReady plan).Fits)
    (transfer : Transfer) :
    ∃ rest, (runWorker p request transfer).frames = .ready plan :: rest ∧
      (afterPlan (runWorker p request transfer) rest = .ok () →
        transfer.receive plan = .ok ()) := by
  have hready : writeWorkerFrame [] (.ready plan) = .ok [.ready plan] :=
    writeWorkerFrame_of_fits hfits
  cases hreceive : transfer.receive plan with
  | ok =>
    have hrun : runWorker p request transfer = ⟨[.ready plan, .complete], .ok ()⟩ := by
      simp only [runWorker, hd, hplan, hready, hreceive, WorkerRun.write,
        writeWorkerFrame_of_fits complete_fits]
      rfl
    exact ⟨[.complete], by rw [hrun], fun _ => rfl⟩
  | error err =>
    have hrun : runWorker p request transfer =
        WorkerRun.write ⟨[.ready plan], .ok ()⟩ (.error err) := by
      simp only [runWorker, hd, hplan, hready, hreceive]
    rw [hrun]
    unfold WorkerRun.write
    split
    · exact ⟨[], rfl, fun hafter => by cases hafter⟩
    · next frames hwrite =>
      unfold writeWorkerFrame at hwrite
      split at hwrite
      · cases hwrite
      · cases hwrite
        exact ⟨[.error err], rfl, fun hafter => by cases hafter⟩

/-- Without a plan from the worker the archive is not waited for. -/
theorem handleUploadWorker_unready {spawned : Except String WorkerRun}
    (hspawn : ∀ transfer : Transfer, spawnWorker host user request limits transfer = spawned)
    (hready : ∀ worker plan rest, spawned = .ok worker → worker.frames ≠ .ready plan :: rest) :
    FirstAnswers host user request (handleUploadWorker host user request limits) := by
  obtain ⟨handled, hsecond, hhandled⟩ : ∃ handled : Handled, handled.responses[1]? = none ∧
      handleUploadWorker host user request limits = fun _ => handled := by
    cases spawned with
    | error err =>
      exact ⟨⟨[], .error err⟩, rfl, funext fun transfer => by
        simp only [handleUploadWorker, hspawn]⟩
    | ok worker =>
      cases hframes : worker.frames with
      | nil =>
        exact ⟨⟨[], .error earlyEof⟩, rfl, funext fun transfer => by
          simp only [handleUploadWorker, hspawn, hframes]⟩
      | cons frame rest =>
        cases frame with
        | ready plan => exact absurd hframes (hready worker plan rest rfl)
        | complete =>
          exact ⟨⟨[], .error "file-copy worker completed before it was ready"⟩, rfl,
            funext fun transfer => by simp only [handleUploadWorker, hspawn, hframes]⟩
        | error err =>
          exact ⟨writeCopyResult [] (.error err), writeCopyResult_nil _,
            funext fun transfer => by simp only [handleUploadWorker, hspawn, hframes]⟩
  rw [hhandled]
  exact .of_const hsecond

/-- With a plan it is, and what the worker says of it is passed on. -/
theorem handleUploadWorker_ready {p : Process} {home : Path} (hd : request.direction = .upload)
    (h : host.server.needsPrivilegedWorker user = true)
    (hhome : host.server.homeForUser user = .ok (some home)) (hworker : host.worker user = .ok p)
    (hspawn : ∀ transfer : Transfer, spawnWorker host user request limits transfer =
      .ok (runWorker { p with home := some home } request transfer))
    (hplan : planForDestination p.isDir (Process.resolveRemotePath { p with home := some home }
      p.currentUsername request.destination) request.entries = .ok plan)
    (hfits : (StreamResponse.fileCopyReady plan).Fits) :
    FirstAnswers host user request (handleUploadWorker host user request limits) := by
  have hanswer : ∀ transfer : Transfer, ∃ result,
      handleUploadWorker host user request limits transfer =
        writeCopyResult [.fileCopyReady plan] result ∧
      (result = .ok () → transfer.receive plan = .ok ()) := by
    intro transfer
    obtain ⟨rest, hframes, hreceived⟩ := runWorker_plan hd hplan hfits transfer
    simp only [handleUploadWorker, hspawn, hframes, writeFrame_of_fits hfits]
    cases transfer.copy with
    | error err => exact ⟨_, rfl, nofun⟩
    | ok => exact ⟨_, rfl, hreceived⟩
  choose result hresult hok using hanswer
  rw [funext hresult]
  exact .of_result result (.worker h hhome hworker) hplan hok

theorem handleUploadWorker_answers (hd : request.direction = .upload)
    (h : host.server.needsPrivilegedWorker user = true) :
    FirstAnswers host user request (handleUploadWorker host user request limits) := by
  have hunspawned : ∀ err, (∀ transfer : Transfer,
      spawnWorker host user request limits transfer = .error err) →
      FirstAnswers host user request (handleUploadWorker host user request limits) :=
    fun err hspawn => handleUploadWorker_unready hspawn fun _ _ _ herr => by cases herr
  have hsilent : ∀ exit, (∀ transfer : Transfer,
      spawnWorker host user request limits transfer = .ok ⟨[], exit⟩) →
      FirstAnswers host user request (handleUploadWorker host user request limits) := by
    intro exit hspawn
    apply handleUploadWorker_unready hspawn
    rintro worker plan rest ⟨⟩ hframes
    cases hframes
  cases hhome : host.server.homeForUser user with
  | error err => exact hunspawned err fun _ => by simp only [spawnWorker, hhome]
  | ok home =>
  cases home with
  | none =>
    exact hunspawned "unknown file-copy user" fun _ => by simp only [spawnWorker, hhome]
  | some home =>
  cases hframe : checkWorkerFrame (WorkerRequest.encode ⟨request, limits⟩) with
  | error err => exact hunspawned err fun _ => by simp only [spawnWorker, hhome, hframe]
  | ok =>
  cases hworker : host.worker user with
  | error err =>
    exact hsilent (.error err) fun _ => by simp only [spawnWorker, hhome, hframe, hworker]
  | ok p =>
  have hspawn : ∀ transfer : Transfer, spawnWorker host user request limits transfer =
      .ok (runWorker { p with home := some home } request transfer) := fun transfer => by
    simp only [spawnWorker, hhome, hframe, hworker]
  -- The worker's first frame is its reply, if that fits one.
  cases hplan : planForDestination p.isDir (Process.resolveRemotePath { p with home := some home }
      p.currentUsername request.destination) request.entries with
  | error err =>
    have hrun : ∀ transfer : Transfer, spawnWorker host user request limits transfer =
        .ok (WorkerRun.write ⟨[], .ok ()⟩ (.error err)) := fun transfer => by
      simp only [hspawn, runWorker, hd, hplan]
    apply handleUploadWorker_unready hrun
    rintro worker plan rest ⟨⟩ hframes
    exact write_error_ne_ready hframes
  | ok plan =>
  by_cases hfits : (WorkerResponse.ready plan).forward.Fits
  · exact handleUploadWorker_ready hd h hhome hworker hspawn hplan hfits
  · obtain ⟨err, hunfit⟩ := writeWorkerFrame_of_not_fits [] hfits
    exact hsilent (.error err) fun transfer => by simp only [hspawn, runWorker, hd, hplan, hunfit]

theorem serveFileCopy_answers (hd : request.direction = .upload) :
    FirstAnswers host user request (serveFileCopy host user request limits) := by
  have hserve : serveFileCopy host user request limits = handleUpload host user request limits := by
    funext transfer
    simp only [serveFileCopy, hd]
  rw [hserve]
  unfold handleUpload
  by_cases hentries : limits.maxEntries.toNat < request.entries.length
  · simp only [if_pos hentries]
    exact .of_const (writeCopyResult_nil _)
  · simp only [if_neg hentries]
    cases h : host.server.needsPrivilegedWorker user with
    | false => simpa using handleUploadDirect_answers h
    | true => simpa using handleUploadWorker_answers hd h

end Server

/-- An upload that the client reports as done has been received whole by a process of the user's:
the server has unpacked, under the plan that it made for the destination, the complete archive
of the client's sources. If these can be copied, they are below the destination then as they are
at the client, and nothing else there has changed. -/
theorem upload_delivers [Postcard] {tar : TarLib} {zstd : Zstd} (ht : tar.Lawful)
    (hc : tar.Covers) (hz : zstd.Lawful) {fs : Fs} {limits limits' : FileCopyLimits}
    (hlimits : limits.Within limits') {host : Host} {user : String} {d : Destination}
    {copy : Except String Unit} {request : FileCopyRequest} (hd : request.direction = .upload)
    (hup : Uploads tar zstd fs limits (host.uploads tar zstd d copy user limits') request
      (.ok ())) :
    ∃ p name plan sent, host.ServedBy user p name ∧
      planForDestination p.isDir (p.resolveRemotePath name request.destination) request.entries =
        .ok plan ∧
      SendsArchive tar fs limits plan.entries sent ∧ sent.result = .ok () ∧
      ∃ received, received = receiveArchive tar zstd d
          ⟨archiveWriter zstd request.compression sent.writes.flatten, none⟩
          (.ofString plan.extractDir) request.compression limits' ∧
        received.result = .ok () ∧
        ∀ sources label disk, plan.entries = sources.map (·.1) → Copyable tar fs label sources →
          d.Ready (.ofString plan.extractDir) disk (copied fs label sources) →
          (archiveWriter zstd request.compression sent.writes.flatten).length ≤ u64Max →
          disk received.out.entries = (copied fs label sources).overlay (disk []) := by
  generalize hresult : (Except.ok () : Except UploadError Unit) = result at hup
  cases hup with
  | oversized | unready | badPlan | unsent | broken => cases hresult
  | @answered plan sent hframe hready hplan hsent hok =>
    have hanswers : FirstAnswers host user request (serveFileCopy host user request limits') :=
      serveFileCopy_answers hd
    have hsecond := responseAt_ok (expectOk_ok hresult.symm)
    have hfirst := responseAt_ok (expectCopyReady_ok hready)
    obtain ⟨p, name, plan', hserved, hplan', hfirst', hreceive⟩ := hanswers.second _ hsecond
    -- Both answers are about one plan, since the first does not depend on the archive.
    obtain rfl : plan' = plan := by
      rw [hanswers.first _ _, hfirst] at hfirst'
      cases hfirst'
      rfl
    have hreceived : (receiveArchive tar zstd d
        ⟨archiveWriter zstd request.compression sent.writes.flatten, none⟩
        (.ofString plan'.extractDir) request.compression limits').result = .ok () := by
      simp only [Transfer.unpacking] at hreceive
      split at hreceive
      · assumption
      · cases hreceive
    refine ⟨p, name, plan', sent, hserved, hplan', hsent, hok, _, rfl, hreceived, ?_⟩
    intro sources label disk hsources hcopyable hreadyDisk hmax
    rw [hsources] at hsent
    exact (receiveArchive_copied ht hc hz hlimits hcopyable hsent hok rfl hmax hreadyDisk).2

namespace Home

def upload : FileCopyRequest := ⟨.upload, entries, "/home/bob/", .none⟩

def plan : FileCopyPlan := ⟨"/home/bob/", entries⟩

def server : UploadServer :=
  Unanswered.host.uploads Ustar.tar Raw.zstd destination (.ok ()) "alice" ⟨2, 3⟩

theorem serve_upload (transfer : Transfer) :
    serveFileCopy Unanswered.host "alice" upload ⟨2, 3⟩ transfer =
      writeCopyResult [.fileCopyReady plan] (transfer.receive plan) := rfl

theorem uploads : Uploads Ustar.tar Raw.zstd fs ⟨2, 3⟩ server upload (.ok ()) := by
  obtain ⟨sent, hsent, hok, hmax⟩ := exists_sent
  have hready : server.ready upload = .ok (.fileCopyReady plan) := by
    simp only [server, Host.uploads, serve_upload, responseAt, writeCopyResult_first]
  have hwire : sent.writes.flatten =
      archiveWriter Raw.zstd upload.compression sent.writes.flatten := rfl
  have hreceived : (receiveArchive Ustar.tar Raw.zstd destination
      ⟨archiveWriter Raw.zstd upload.compression sent.writes.flatten, none⟩
      (.ofString plan.extractDir) upload.compression ⟨2, 3⟩).result = .ok () :=
    (receiveArchive_copied Ustar.tar_lawful Ustar.tar_covers Raw.zstd_lawful (.refl _) copyable
      hsent hok hwire hmax (ready _)).1
  have hfinished : expectOk (server.finished upload
      ⟨archiveWriter Raw.zstd upload.compression sent.writes.flatten, none⟩) = .ok () := by
    simp only [server, Host.uploads, serve_upload, Transfer.unpacking, hreceived]
    rfl
  rw [← hfinished]
  exact .answered (by decide) (by rw [hready]; rfl) rfl hsent hok

end Home

/-- A directory with a file and a symlink in it is in the other home directory afterwards. -/
theorem upload_delivers_home :
    Uploads Ustar.tar Raw.zstd Home.fs ⟨2, 3⟩ Home.server Home.upload (.ok ()) ∧
    ∃ sent, SendsArchive Ustar.tar Home.fs ⟨2, 3⟩ Home.entries sent ∧
      Home.disk (receiveArchive Ustar.tar Raw.zstd Home.destination ⟨sent.writes.flatten, none⟩
        (.ofString "/home/bob/") .none ⟨2, 3⟩).out.entries [Home.name, Shelf.note] =
          some (.file [104, 105]) := by
  obtain ⟨p, name, plan, sent, hserved, hplan, hsent, hok, received, rfl, -, hdisk⟩ :=
    upload_delivers Ustar.tar_lawful Ustar.tar_covers Raw.zstd_lawful (.refl _) rfl Home.uploads
  obtain ⟨rfl, rfl⟩ : p = Unanswered.alice ∧ name = "alice" := by
    cases hserved with
    | server => exact ⟨rfl, rfl⟩
    | worker h => cases h
  obtain rfl : plan = Home.plan := (Except.ok.inj hplan).symm
  obtain ⟨sent', hsent', -, hmax⟩ := Home.exists_sent
  obtain rfl : sent = sent' := Loop.Returns.unique hsent hsent'
  refine ⟨Home.uploads, sent, hsent, ?_⟩
  have hreceived := hdisk Home.sources (fun _ => Home.name) Home.disk rfl Home.copyable
    (Home.ready _) hmax
  exact congrFun hreceived [Home.name, Shelf.note]

/-- What this program's server answers to the request of a download: its first frame, and the
bytes behind it. -/
def Host.Answers [Postcard] (host : Host) (tar : TarLib) (zstd : Zstd) (fs : Fs) (user : String)
    (limits : FileCopyLimits) (x : Disturbance) (request : FileCopyRequest) (answer : Answer) :
    Prop :=
  ∃ handled bytes, host.ServesDownload tar zstd fs user limits x request handled bytes ∧
    answer = ⟨responseAt handled.responses 0, ⟨bytes, none⟩⟩

section Sends

variable {host : Host} {tar : TarLib} {zstd : Zstd} {fs : Fs} {user : String}
  {limits : FileCopyLimits} {compression : FileCopyCompression} {entries : List FileCopyEntry}
  {result : Except String Unit} {bytes : Bytes} {sent : Sent}

theorem SendsOn.of_ok
    (hsent : ∀ sent', SendsArchive tar fs limits entries sent' ↔ sent' = sent)
    (hok : sent.result = .ok ())
    (h : SendsOn tar zstd fs limits compression entries result bytes) :
    result = .ok () ∧ bytes = archiveWriter zstd compression sent.writes.flatten := by
  cases h with
  | @finished sent' h _ =>
    obtain rfl := (hsent sent').mp h
    exact ⟨rfl, rfl⟩
  | @failed sent' err _ h herr _ =>
    obtain rfl := (hsent sent').mp h
    rw [hok] at herr
    cases herr

/-- An archive that can be completed gets through, from a worker too if nothing disturbs that. -/
theorem Host.Sends.of_ok
    (hsent : ∀ sent', SendsArchive tar fs limits entries sent' ↔ sent' = sent)
    (hok : sent.result = .ok ())
    (h : host.Sends tar zstd fs user limits .none compression entries result bytes) :
    result = .ok () ∧ bytes = archiveWriter zstd compression sent.writes.flatten := by
  unfold Host.Sends at h
  split at h
  · exact h.of_ok hsent hok
  · obtain ⟨output, houtput, -, hcopied⟩ := h
    rw [hcopied rfl]
    cases houtput with
    | finished h => exact h.of_ok hsent hok
    | failed h _ =>
      obtain ⟨herr, -⟩ := h.of_ok hsent hok
      cases herr
    | killed err hx _ => cases hx

/-- Compression adds little. -/
theorem length_archiveWriter_le (hz : zstd.Lawful) (compression : FileCopyCompression)
    (archive : Bytes) :
    (archiveWriter zstd compression archive).length ≤
      archive.length + archive.length / 256 + 65536 := by
  cases compression with
  | none =>
    simp only [archiveWriter]
    omega
  | zstd => exact hz.length_compress archive

end Sends

/-- A download whose request, answer and archive are within the limits succeeds: the server, or its
worker, sends the whole archive of the sources that it finds for the client, and they are below the
directory of the client's plan then, under the names of that plan, and nothing else there has
changed. -/
theorem download_delivers [Postcard] {tar : TarLib} {zstd : Zstd} (ht : tar.Lawful)
    (hc : tar.Covers) (hz : zstd.Lawful) {fs : Fs} {limits limits' : FileCopyLimits}
    (hlimits : limits.Within limits') {host : Host} {user : String} {p : Process} {name : String}
    (hserved : host.ServedBy user p name) {isDir : Path → Bool} {destination : Path}
    {entries : List FileCopyEntry} {plan : FileCopyPlan}
    (hplan : planForDestination isDir destination entries = .ok plan)
    {compression : FileCopyCompression} {request : FileCopyRequest}
    (hrequest : request = ⟨.download, plan.entries, "", compression⟩)
    (hframe : request.streamOpen.length ≤ maxFrameLen)
    (hpipe : (WorkerRequest.encode ⟨request, limits⟩).length ≤ workerFrameLimit)
    (hentries : plan.entries.length ≤ limits.maxEntries.toNat)
    {sources : List (FileCopyEntry × Tree)} (hne : sources ≠ [])
    (hresolve : p.resolveEntries name plan.entries = .ok (sources.map (·.1)))
    (hfits : (StreamResponse.fileCopyReady ⟨"", sources.map (·.1)⟩).Fits)
    {label : FileCopyEntry → FileName} (hcopyable : Copyable tar fs label sources)
    (hdisabled : limits.disabled = false)
    (hcount : nodeCount sources ≤ limits.maxEntries.toNat)
    (hbytes : fileBytes sources ≤ limits.maxBytes.toNat)
    (hlength : archiveLength tar fs sources ≤ archiveByteLimit limits)
    (hmax : archiveLength tar fs sources + archiveLength tar fs sources / 256 + 65536 ≤ u64Max)
    {server : FileCopyRequest → Answer}
    (hserver : host.Answers tar zstd fs user limits .none request (server request))
    {d : Destination} {disk : List Item → Disk}
    (hready : d.Ready (.ofString plan.extractDir) disk (copied fs label sources)) :
    ∃ received, received = download tar zstd d isDir (.ok server) compression limits' entries
        destination ∧
      received.result = .ok () ∧
      disk received.out.entries = (copied fs label sources).overlay (disk []) := by
  obtain ⟨sent, hsent, hok, hlen⟩ :=
    sendsArchive_ok hc hdisabled hne hcopyable.holds hcount hbytes hlength
  subst hrequest
  obtain ⟨handled, bytes, ⟨send, rfl, hsends⟩, hanswer⟩ := hserver
  have hfirst := serveFileCopy_download ⟨fun _ => .ok (), send, .ok ()⟩ rfl hserved hentries hpipe
    hresolve hfits
  obtain ⟨-, rfl⟩ := (hsends _ hfirst).of_ok hsent hok
  have hwire := length_archiveWriter_le hz compression sent.writes.flatten
  rw [hlen] at hwire
  refine ⟨_, rfl, ?_⟩
  have hplanned : expectCopyReady (responseAt (serveFileCopy host user
      ⟨.download, plan.entries, "", compression⟩ limits
      ⟨fun _ => .ok (), send, .ok ()⟩).responses 0) = .ok ⟨"", sources.map (·.1)⟩ := by
    rw [responseAt, hfirst]
    rfl
  have hplanned' : expectCopyReady (server ⟨.download, plan.entries, "", compression⟩).response =
      .ok ⟨"", sources.map (·.1)⟩ := by
    rw [hanswer]
    exact hplanned
  simp only [download, hplan, if_neg (Nat.not_lt.mpr hframe), hplanned']
  rw [hanswer]
  exact receiveArchive_copied ht hc hz hlimits hcopyable ((hsent sent).mpr rfl) hok rfl
    (Nat.le_trans hwire hmax) hready

/-- The directory that is asked for by its name at home is in the other home directory. -/
theorem download_delivers_home :
    ∃ server, Unanswered.host.Answers Ustar.tar Raw.zstd Home.fs "alice" ⟨2, 3⟩ .none
        ⟨.download, [⟨"d", "d"⟩], "", .none⟩ (server ⟨.download, [⟨"d", "d"⟩], "", .none⟩) ∧
      ∃ received, received = download Ustar.tar Raw.zstd Home.destination (fun _ => true)
          (.ok server) .none ⟨2, 3⟩ [⟨"d", "d"⟩] (.ofString "/home/bob") ∧
        received.result = .ok () ∧
        Home.disk received.out.entries [Home.name, Shelf.note] = some (.file [104, 105]) := by
  obtain ⟨sent, hsent, hok, -⟩ := Home.exists_sent
  have hplan : planForDestination (fun _ => true) (.ofString "/home/bob") [⟨"d", "d"⟩] =
      .ok ⟨"/home/bob", [⟨"d", "d"⟩]⟩ := rfl
  have hresolve : Unanswered.alice.resolveEntries "alice" [⟨"d", "d"⟩] =
      .ok (Home.sources.map (·.1)) := rfl
  have hserved : Unanswered.host.ServedBy "alice" Unanswered.alice "alice" := .server rfl
  obtain ⟨server, hserver⟩ : ∃ server : FileCopyRequest → Answer,
      Unanswered.host.Answers Ustar.tar Raw.zstd Home.fs "alice" ⟨2, 3⟩ .none
        ⟨.download, [⟨"d", "d"⟩], "", .none⟩ (server ⟨.download, [⟨"d", "d"⟩], "", .none⟩) := by
    refine ⟨fun _ => ⟨.ok (.fileCopyReady ⟨"", Home.entries⟩), ⟨sent.writes.flatten, none⟩⟩,
      ⟨[.fileCopyReady ⟨"", Home.entries⟩], .ok ()⟩, sent.writes.flatten,
      ⟨fun _ => .ok (), rfl, ?_⟩, rfl⟩
    intro plan hplan
    cases hplan
    exact .finished hsent hok
  have hne : Home.sources ≠ [] := List.cons_ne_nil _ _
  have hlength : archiveLength Ustar.tar Home.fs Home.sources = 3072 := by decide +kernel
  obtain ⟨received, hreceived, hresult, hdisk⟩ :=
    download_delivers Ustar.tar_lawful Ustar.tar_covers Raw.zstd_lawful (.refl _) hserved hplan rfl
      (by decide) (by decide) (by decide) hne hresolve (by decide) Home.copyable rfl (by decide)
      (by decide) (by rw [hlength]; decide) (by rw [hlength]; decide) hserver (Home.ready _)
  refine ⟨server, hserver, received, hreceived, hresult, ?_⟩
  rw [hdisk]
  rfl

end Hush.FileCopy
