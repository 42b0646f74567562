import Hush.FileCopy.Plan
import Hush.Lib.Postcard

/-! The messages of a copy and their frames, on the stream and on the worker's pipes. -/
namespace Hush.FileCopy
open Hush.Lib Hush.Lib.Postcard

inductive StreamResponse
  | ok
  | sessionReady
  | fileCopyReady (plan : FileCopyPlan)
  | error (err : String)
  deriving DecidableEq, Repr

structure WorkerRequest where
  request : FileCopyRequest
  limits : FileCopyLimits
  deriving DecidableEq, Repr

inductive WorkerResponse
  | ready (plan : FileCopyPlan)
  | complete
  | error (err : String)
  deriving DecidableEq, Repr

variable [Postcard]

def FileCopyDirection.encode : FileCopyDirection → Bytes
  | .upload => varint 0
  | .download => varint 1

def FileCopyCompression.encode : FileCopyCompression → Bytes
  | .none => varint 0
  | .zstd => varint 1

def FileCopyEntry.encode (entry : FileCopyEntry) : Bytes :=
  str entry.path ++ str entry.archiveName

def FileCopyRequest.encode (request : FileCopyRequest) : Bytes :=
  request.direction.encode ++ seq FileCopyEntry.encode request.entries ++
    str request.destination ++ request.compression.encode

def FileCopyPlan.encode (plan : FileCopyPlan) : Bytes :=
  str plan.extractDir ++ seq FileCopyEntry.encode plan.entries

/-- `StreamOpen::FileCopy`, the tenth of its variants. -/
def FileCopyRequest.streamOpen (request : FileCopyRequest) : Bytes := varint 9 ++ request.encode

def StreamResponse.encode : StreamResponse → Bytes
  | .ok => varint 0
  | .sessionReady => varint 1
  | .fileCopyReady plan => varint 2 ++ plan.encode
  | .error err => varint 3 ++ str err

def WorkerRequest.encode (request : WorkerRequest) : Bytes :=
  request.request.encode ++ varint request.limits.maxBytes.toNat ++
    varint request.limits.maxEntries.toNat

def WorkerResponse.encode : WorkerResponse → Bytes
  | .ready plan => varint 0 ++ plan.encode
  | .complete => varint 1
  | .error err => varint 2 ++ str err

/-- `MAX_FRAME_LEN`. -/
def maxFrameLen : Nat := 1024 * 1024

/-- `WORKER_FRAME_LIMIT`. -/
def workerFrameLimit : Nat := 2 ^ 20

/-- `write_frame`: the frames written so far, and one more if it is not too large. -/
def writeFrame (written : List StreamResponse) (value : StreamResponse) :
    Except String (List StreamResponse) :=
  if maxFrameLen < value.encode.length then
    .error s!"frame too large: {value.encode.length} bytes"
  else .ok (written ++ [value])

/-- The check of `write_worker_frame`, and the same one of `read_worker_frame`. -/
def checkWorkerFrame (bytes : Bytes) : Except String Unit :=
  if workerFrameLimit < bytes.length then .error "file-copy worker frame is too large"
  else .ok ()

def writeWorkerFrame (written : List WorkerResponse) (value : WorkerResponse) :
    Except String (List WorkerResponse) :=
  match checkWorkerFrame value.encode with
  | .error err => .error err
  | .ok () => .ok (written ++ [value])

/-- The response fits a frame. -/
def StreamResponse.Fits (response : StreamResponse) : Prop :=
  response.encode.length ≤ maxFrameLen

instance (response : StreamResponse) : Decidable response.Fits :=
  inferInstanceAs (Decidable (_ ≤ _))

theorem writeFrame_of_fits {written : List StreamResponse} {value : StreamResponse}
    (h : value.Fits) : writeFrame written value = .ok (written ++ [value]) :=
  if_neg (Nat.not_lt.mpr h)

theorem writeFrame_ok {written written' : List StreamResponse} {value : StreamResponse}
    (h : writeFrame written value = .ok written') : written' = written ++ [value] := by
  unfold writeFrame at h
  split at h
  · cases h
  · exact (Except.ok.inj h).symm

theorem writeFrame_of_not_fits (written : List StreamResponse) {value : StreamResponse}
    (h : ¬ value.Fits) : ∃ err, writeFrame written value = .error err :=
  ⟨_, if_pos (Nat.not_le.mp h)⟩

/-- A worker's response, as the server passes it on. -/
def WorkerResponse.forward : WorkerResponse → StreamResponse
  | .ready plan => .fileCopyReady plan
  | .complete => .ok
  | .error err => .error err

/-- The two encodings of a response have the same size, so what fits the pipe fits the stream. -/
theorem length_forward (response : WorkerResponse) :
    response.forward.encode.length = response.encode.length := by
  cases response <;>
    simp [WorkerResponse.forward, WorkerResponse.encode, StreamResponse.encode,
      length_varint_one]

theorem writeWorkerFrame_of_fits {written : List WorkerResponse} {value : WorkerResponse}
    (h : value.forward.Fits) : writeWorkerFrame written value = .ok (written ++ [value]) := by
  rw [StreamResponse.Fits, length_forward] at h
  have hfits : ¬ workerFrameLimit < value.encode.length := Nat.not_lt.mpr h
  simp [writeWorkerFrame, checkWorkerFrame, hfits]

theorem writeWorkerFrame_of_not_fits (written : List WorkerResponse) {value : WorkerResponse}
    (h : ¬ value.forward.Fits) : ∃ err, writeWorkerFrame written value = .error err := by
  rw [StreamResponse.Fits, length_forward] at h
  have hlong : workerFrameLimit < value.encode.length := Nat.not_le.mp h
  exact ⟨_, by simp only [writeWorkerFrame, checkWorkerFrame, if_pos hlong]; rfl⟩

end Hush.FileCopy
