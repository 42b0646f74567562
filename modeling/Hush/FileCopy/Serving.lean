import Hush.FileCopy.Archive
import Hush.FileCopy.Receive
import Hush.FileCopy.Server

/-!
# The stream of a download

After its plan the server has nothing to send but the archive. It sends that itself, or passes on
what its worker writes, and where this fails all that it can do is to end the stream.
-/

namespace Hush.FileCopy
open Hush.Lib

/-- What got through the limit, and what a builder that is dropped unfinished still writes. -/
def afterDrop (tar : TarLib) (limits : FileCopyLimits) (sent : Sent) : List WriteOp :=
  (LimitedWriter.writeAll ⟨archiveByteLimit limits, sent.ops⟩ tar.dropped).1.ops

/-- `send_archive_to_with_progress` ends in this way, with these bytes on the stream below its
buffer. The buffer is lost where it fails. What a compressor has passed on by then is left open. -/
inductive SendsOn (tar : TarLib) (zstd : Zstd) (fs : Fs) (limits : FileCopyLimits)
    (compression : FileCopyCompression) (entries : List FileCopyEntry) :
    Except String Unit → Bytes → Prop
  | finished {sent : Sent} (h : SendsArchive tar fs limits entries sent)
      (hok : sent.result = .ok ()) :
      SendsOn tar zstd fs limits compression entries (.ok ())
        (archiveWriter zstd compression sent.writes.flatten)
  | failed {sent : Sent} {err : String} {bytes : Bytes}
      (h : SendsArchive tar fs limits entries sent) (herr : sent.result = .error err)
      (hbytes : compression = .none → bytes = BufWriter.delivered (afterDrop tar limits sent)) :
      SendsOn tar zstd fs limits compression entries (.error err) bytes

/-- At some moment these bytes of the archive have been written. -/
def WrittenSoFar (tar : TarLib) (fs : Fs) (limits : FileCopyLimits)
    (entries : List FileCopyEntry) (bytes : Bytes) : Prop :=
  (∃ s, Loop.Reaches (Sender.step tar fs) (.init limits entries) s ∧
    bytes <+: s.writer.writes.flatten) ∨
  ∃ sent, SendsArchive tar fs limits entries sent ∧ bytes <+: sent.writes.flatten

/-- What happens to a worker from outside: something kills it, and its output is copied to the
stream, which can fail. -/
structure Disturbance where
  killed : Bool
  copy : Except String Unit

def Disturbance.none : Disturbance := ⟨false, .ok ()⟩

/-- How a worker exits, and its output after its plan. The pipe need not have got all of it where
the worker does not end well. -/
inductive WorkerSends (tar : TarLib) (zstd : Zstd) (fs : Fs) (limits : FileCopyLimits)
    (compression : FileCopyCompression) (entries : List FileCopyEntry) (x : Disturbance) :
    Except String Unit → Bytes → Prop
  | finished {output : Bytes}
      (h : SendsOn tar zstd fs limits compression entries (.ok ()) output) :
      WorkerSends tar zstd fs limits compression entries x (.ok ()) output
  | failed {err : String} {bytes output : Bytes}
      (h : SendsOn tar zstd fs limits compression entries (.error err) bytes)
      (houtput : output <+: bytes) :
      WorkerSends tar zstd fs limits compression entries x (.error err) output
  | killed {output : Bytes} (err : String) (hx : x.killed = true)
      (houtput : compression = .none → WrittenSoFar tar fs limits entries output) :
      WorkerSends tar zstd fs limits compression entries x (.error err) output

/-- How the sending of a plan's entries ends, and the bytes that get onto the stream. -/
def Host.Sends (host : Host) (tar : TarLib) (zstd : Zstd) (fs : Fs) (user : String)
    (limits : FileCopyLimits) (x : Disturbance) (compression : FileCopyCompression)
    (entries : List FileCopyEntry) (result : Except String Unit) (bytes : Bytes) : Prop :=
  match host.server.needsPrivilegedWorker user with
  | false => SendsOn tar zstd fs limits compression entries result bytes
  | true => ∃ output, WorkerSends tar zstd fs limits compression entries x result output ∧
      bytes <+: output ∧ (x.copy = .ok () → bytes = output)

/-- A download is served with these frames and this result, and with these bytes after the
frames. The stream ends then, whether the handler finishes it or drops it. -/
def Host.ServesDownload [Postcard] (host : Host) (tar : TarLib) (zstd : Zstd) (fs : Fs)
    (user : String) (limits : FileCopyLimits) (x : Disturbance) (request : FileCopyRequest)
    (handled : Handled) (bytes : Bytes) : Prop :=
  ∃ send : List FileCopyEntry → Except String Unit,
    handled = serveFileCopy host user request limits ⟨fun _ => .ok (), send, x.copy⟩ ∧
    ∀ plan, handled.responses[0]? = some (.fileCopyReady plan) →
      host.Sends tar zstd fs user limits x request.compression plan.entries (send plan.entries)
        bytes

/-- The process that serves a user, and the name it knows the user by: the server itself, or a
worker. -/
inductive Host.ServedBy (host : Host) (user : String) : Process → String → Prop
  | server (h : host.server.needsPrivilegedWorker user = false) :
      ServedBy host user host.server user
  | worker {p : Process} {home : Path} (h : host.server.needsPrivilegedWorker user = true)
      (hhome : host.server.homeForUser user = .ok (some home))
      (hworker : host.worker user = .ok p) :
      ServedBy host user { p with home := some home } p.currentUsername

section Plan

variable [Postcard] {host : Host} {user : String} {request : FileCopyRequest}
  {limits : FileCopyLimits} {transfer : Transfer} {served : List FileCopyEntry}
  {plan : FileCopyPlan}

theorem handleDownloadDirect_first {p : Process}
    (hresolve : p.resolveEntries user request.entries = .ok served)
    (hfits : (StreamResponse.fileCopyReady ⟨"", served⟩).Fits) :
    (handleDownloadDirect p user request transfer).responses[0]? =
      some (.fileCopyReady ⟨"", served⟩) := by
  simp only [handleDownloadDirect, hresolve, writeFrame_of_fits hfits]
  rfl

theorem handleDownloadWorker_first {p : Process} {home : Path}
    (hd : request.direction = .download)
    (hhome : host.server.homeForUser user = .ok (some home)) (hworker : host.worker user = .ok p)
    (hpipe : (WorkerRequest.encode ⟨request, limits⟩).length ≤ workerFrameLimit)
    (hresolve : Process.resolveEntries { p with home := some home } p.currentUsername
      request.entries = .ok served)
    (hfits : (StreamResponse.fileCopyReady ⟨"", served⟩).Fits) :
    (handleDownloadWorker host user request limits transfer).responses[0]? =
      some (.fileCopyReady ⟨"", served⟩) := by
  have hframe : checkWorkerFrame (WorkerRequest.encode ⟨request, limits⟩) = .ok () :=
    if_neg (Nat.not_lt.mpr hpipe)
  have hready : writeWorkerFrame [] (.ready ⟨"", served⟩) = .ok [.ready ⟨"", served⟩] :=
    writeWorkerFrame_of_fits hfits
  simp only [handleDownloadWorker, spawnWorker, hhome, hframe, hworker, runWorker, hd, hresolve,
    hready, writeFrame_of_fits hfits]
  cases transfer.copy <;> rfl

/-- The sources that a process finds are announced. -/
theorem serveFileCopy_download (transfer : Transfer) {p : Process} {name : String}
    (hd : request.direction = .download) (hserved : host.ServedBy user p name)
    (hentries : request.entries.length ≤ limits.maxEntries.toNat)
    (hpipe : (WorkerRequest.encode ⟨request, limits⟩).length ≤ workerFrameLimit)
    (hresolve : p.resolveEntries name request.entries = .ok served)
    (hfits : (StreamResponse.fileCopyReady ⟨"", served⟩).Fits) :
    (serveFileCopy host user request limits transfer).responses[0]? =
      some (.fileCopyReady ⟨"", served⟩) := by
  simp only [serveFileCopy, hd, handleDownload, if_neg (Nat.not_lt.mpr hentries)]
  cases hserved with
  | server h =>
    rw [h]
    exact handleDownloadDirect_first hresolve hfits
  | worker h hhome hworker =>
    rw [h]
    exact handleDownloadWorker_first hd hhome hworker hpipe hresolve hfits

/-- An error is not a plan. -/
theorem writeCopyResult_not_ready {err : String} :
    (writeCopyResult [] (.error err)).responses[0]? ≠ some (.fileCopyReady plan) := by
  unfold writeCopyResult
  simp only
  split
  · simp
  · next written hwrite =>
    rw [writeFrame_ok hwrite]
    simp

/-- After its plan a handler does nothing but send. -/
theorem handleDownloadDirect_result {p : Process}
    (h : (handleDownloadDirect p user request transfer).responses[0]? =
      some (.fileCopyReady plan)) :
    (handleDownloadDirect p user request transfer).result = transfer.send plan.entries := by
  unfold handleDownloadDirect at h ⊢
  split at h
  · exact absurd h writeCopyResult_not_ready
  · next entries hresolve =>
    split at h
    · cases h
    · next written hwrite =>
      rw [writeFrame_ok hwrite] at h
      cases h
      rfl

/-- A worker that has sent a plan exits as its sending ends. -/
theorem spawnWorker_exit {worker : WorkerRun} {rest : List WorkerResponse}
    (hd : request.direction = .download)
    (h : spawnWorker host user request limits transfer = .ok worker)
    (hframes : worker.frames = .ready plan :: rest) :
    worker.exit = transfer.send plan.entries := by
  unfold spawnWorker at h
  split at h
  · cases h
  · cases h
  · split at h
    · cases h
    · split at h
      · cases h
        cases hframes
      · cases h
        simp only [runWorker, hd] at hframes ⊢
        split at hframes
        · exact absurd hframes write_error_ne_ready
        · next entries hresolve =>
          split at hframes
          · cases hframes
          · next frames hwrite =>
            unfold writeWorkerFrame at hwrite
            split at hwrite
            · cases hwrite
            · cases hwrite
              cases hframes
              rfl

theorem handleDownloadWorker_result (hd : request.direction = .download)
    (h : (handleDownloadWorker host user request limits transfer).responses[0]? =
      some (.fileCopyReady plan)) :
    (handleDownloadWorker host user request limits transfer).result =
      transfer.copy.bind fun _ => transfer.send plan.entries := by
  unfold handleDownloadWorker at h ⊢
  cases hspawn : spawnWorker host user request limits transfer with
  | error err => simp [hspawn] at h
  | ok worker =>
  simp only [hspawn] at h ⊢
  split at h
  · cases h
  · exact absurd h writeCopyResult_not_ready
  · cases h
  · next plan' rest hframes =>
    split at h
    · cases h
    · next written hwrite =>
      obtain rfl := writeFrame_ok hwrite
      have hexit := spawnWorker_exit hd hspawn hframes
      cases hcopy : transfer.copy with
      | error err => rfl
      | ok =>
        simp only [hcopy] at h
        cases h
        exact hexit

/-- The result of a handler whose plan has been sent. -/
theorem serveFileCopy_result (hd : request.direction = .download)
    (h : (serveFileCopy host user request limits transfer).responses[0]? =
      some (.fileCopyReady plan)) :
    (serveFileCopy host user request limits transfer).result =
      match host.server.needsPrivilegedWorker user with
      | false => transfer.send plan.entries
      | true => transfer.copy.bind fun _ => transfer.send plan.entries := by
  simp only [serveFileCopy, hd, handleDownload] at h ⊢
  split at h
  · exact absurd h writeCopyResult_not_ready
  · next hentries =>
    rw [if_neg hentries]
    cases hworker : host.server.needsPrivilegedWorker user with
    | false =>
      simp only [hworker, Bool.false_eq_true, if_false] at h ⊢
      exact handleDownloadDirect_result h
    | true =>
      simp only [hworker, if_true] at h ⊢
      exact handleDownloadWorker_result hd h

end Plan

section Broken

variable {host : Host} {tar : TarLib} {zstd : Zstd} {fs : StaticFs} {user : String}
  {limits : FileCopyLimits} {x : Disturbance} {entries : List FileCopyEntry}
  {result : Except String Unit} {bytes : Bytes}

/-- A dropped builder makes at most one write, of a trailer. -/
theorem afterDrop_cases (ht : tar.Lawful) (limits : FileCopyLimits) (sent : Sent) :
    afterDrop tar limits sent = sent.ops ∨
      ∃ chunk : Bytes, afterDrop tar limits sent = sent.ops ++ [.write chunk] ∧
        chunk.length ≤ 1024 := by
  have hlen : tar.dropped.length ≤ 1024 := by
    rcases ht.dropped_cases with h | h
    · simp [h]
    · rw [h, TarLib.trailer, List.length_replicate]
  unfold afterDrop LimitedWriter.writeAll
  simp only
  split
  · exact Or.inr ⟨tar.dropped, rfl, hlen⟩
  · split
    · exact Or.inl rfl
    · refine Or.inr ⟨tar.dropped.take _, rfl, ?_⟩
      rw [List.length_take]
      omega

/-- That write stays in the buffer, so what is delivered was written before the failure. -/
theorem delivered_afterDrop (ht : tar.Lawful) (limits : FileCopyLimits) (sent : Sent) :
    BufWriter.delivered (afterDrop tar limits sent) <+: sent.writes.flatten := by
  rcases afterDrop_cases ht limits sent with hops | ⟨chunk, hops, hlen⟩
  · rw [hops]
    exact BufWriter.delivered_isPrefix _
  · rw [hops]
    exact BufWriter.delivered_of_small _ (Nat.lt_of_le_of_lt hlen (by decide))

theorem SendsOn.broken (ht : tar.Lawful)
    (h : SendsOn tar zstd fs limits .none entries result bytes) : Broken tar bytes := by
  cases h with
  | finished h _ => exact h.broken ht
  | failed h _ hbytes =>
    rw [hbytes rfl]
    exact (h.broken ht).mono (delivered_afterDrop ht limits _)

theorem WrittenSoFar.broken (ht : tar.Lawful) (h : WrittenSoFar tar fs limits entries bytes) :
    Broken tar bytes := by
  rcases h with ⟨s, hs, hbytes⟩ | ⟨sent, hsent, hbytes⟩
  · obtain ⟨ms, harchived, -⟩ := Sender.archived_reaches ht hs
    exact harchived.broken.mono hbytes
  · exact (hsent.broken ht).mono hbytes

/-- However the sending ends, whole members and a part of one get through. -/
theorem Host.Sends.broken (ht : tar.Lawful)
    (h : host.Sends tar zstd fs user limits x .none entries result bytes) : Broken tar bytes := by
  unfold Host.Sends at h
  split at h
  · exact h.broken ht
  · obtain ⟨output, houtput, hprefix, -⟩ := h
    have hbroken : Broken tar output := by
      cases houtput with
      | finished h => exact h.broken ht
      | failed h houtput => exact (h.broken ht).mono houtput
      | killed err hx houtput => exact (houtput rfl).broken ht
    exact hbroken.mono hprefix

end Broken

end Hush.FileCopy
