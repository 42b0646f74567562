import Hush.FileCopy.Frames
import Hush.Lib.Postcard
import Hush.Session.Environment

/-! The messages of the protocol, as they are written and read. -/
namespace Hush.Protocol
open Hush.Lib Hush.Lib.Postcard Hush.Lib.Wire
open Hush.FileCopy (Bytes FileCopyDirection FileCopyCompression FileCopyEntry FileCopyRequest
  FileCopyPlan StreamResponse)
open Hush.Session.Environment (EnvVar)

structure TermSize where
  rows : UInt16
  cols : UInt16
  widthPx : UInt16
  heightPx : UInt16
  deriving DecidableEq, Repr

inductive SessionMode
  | pty (term : String) (size : TermSize)
  | pipes
  deriving DecidableEq, Repr

structure OpenSession where
  command : List String
  useShell : Bool
  mode : SessionMode
  env : List EnvVar
  setEnv : List EnvVar
  forwardAgent : Bool
  deriving DecidableEq, Repr

structure TcpTarget where
  host : String
  port : UInt16
  deriving DecidableEq, Repr

structure RemoteForwardRequest where
  forwardId : UInt64
  listenHost : String
  listenPort : UInt16
  deriving DecidableEq, Repr

inductive RemoteSignal
  | sigabrt | sigalrm | sigfpe | sighup | sigill | sigint | sigkill | sigpipe | sigquit | sigsegv
  | sigterm | sigusr1 | sigusr2
  deriving DecidableEq, Repr

inductive ProcessExit
  | code (code : Int32)
  | signal (signal : RemoteSignal)
  deriving DecidableEq, Repr

inductive StreamOpen
  | session (request : OpenSession)
  | sessionStderr
  | sessionExitStatus (status : ProcessExit)
  | sessionError (err : String)
  | resize (size : TermSize)
  | signal (signal : RemoteSignal)
  | openRemoteForward (request : RemoteForwardRequest)
  | localTcpForward (target : TcpTarget)
  | remoteTcpForward (forwardId : UInt64)
  | fileCopy (request : FileCopyRequest)
  | agentForward (bindSignature : Bytes)
  deriving DecidableEq, Repr

variable [Postcard]

def u16 (n : UInt16) : Bytes := varint n.toNat

def readU16 : Reader Error UInt16 := do return .ofNat (← takeU16)

theorem takes_readU16 (n : UInt16) : Takes readU16 (u16 n) n := by
  refine Takes.bind_pure (takes_u16 n.toNat_lt) ?_
  rw [UInt16.ofNat_toNat]

def u64 (n : UInt64) : Bytes := varint n.toNat

def readU64 : Reader Error UInt64 := do return .ofNat (← takeU64)

theorem takes_readU64 (n : UInt64) : Takes readU64 (u64 n) n := by
  refine Takes.bind_pure (takes_u64 n.toNat_lt) ?_
  rw [UInt64.ofNat_toNat]

def TermSize.encode (size : TermSize) : Bytes :=
  u16 size.rows ++ (u16 size.cols ++ (u16 size.widthPx ++ u16 size.heightPx))

def TermSize.read : Reader Error TermSize := do
  let rows ← readU16
  let cols ← readU16
  let widthPx ← readU16
  let heightPx ← readU16
  return ⟨rows, cols, widthPx, heightPx⟩

theorem TermSize.takes (size : TermSize) : Takes read size.encode size :=
  Takes.bind (takes_readU16 _) (Takes.bind (takes_readU16 _) (Takes.bind (takes_readU16 _)
    (Takes.bind_pure (takes_readU16 _) rfl)))

def SessionMode.encode : SessionMode → Bytes
  | .pty term size => varint 0 ++ (str term ++ size.encode)
  | .pipes => varint 1

def SessionMode.read : Reader Error SessionMode := do
  match ← takeU32 with
  | 0 => return .pty (← takeStr) (← TermSize.read)
  | 1 => return .pipes
  | _ => throw .badVariant

theorem SessionMode.takes {mode : SessionMode} (h : mode.encode.length < 2 ^ 64) :
    Takes read mode.encode mode := by
  cases mode with
  | pty term size =>
    have hterm := length_le_str term
    simp only [encode, List.length_append] at h
    exact takes_variant (by decide) (Takes.bind (takes_str (by omega))
      (Takes.bind_pure size.takes rfl))
  | pipes => exact Takes.bind_pure (takes_u32 (by decide)) rfl

def encodeEnvVar (var : EnvVar) : Bytes := str var.key ++ str var.value

def readEnvVar : Reader Error EnvVar := do
  let key ← takeStr
  let value ← takeStr
  return ⟨key, value⟩

theorem takes_readEnvVar {var : EnvVar} (h : (encodeEnvVar var).length < 2 ^ 64) :
    Takes readEnvVar (encodeEnvVar var) var := by
  have hkey := length_le_str var.key
  have hvalue := length_le_str var.value
  simp only [encodeEnvVar, List.length_append] at h
  exact Takes.bind (takes_str (by omega)) (Takes.bind_pure (takes_str (by omega)) rfl)

theorem length_encodeEnvVar_pos (var : EnvVar) : 0 < (encodeEnvVar var).length := by
  have hpos := length_str_pos var.key
  rw [encodeEnvVar, List.length_append]
  omega

theorem takes_env {env : List EnvVar} (h : (seq encodeEnvVar env).length < 2 ^ 64) :
    Takes (takeSeq readEnvVar) (seq encodeEnvVar env) env :=
  takes_items length_encodeEnvVar_pos (fun _ => takes_readEnvVar) h

def OpenSession.encode (request : OpenSession) : Bytes :=
  seq Postcard.str request.command ++ (Postcard.bool request.useShell ++ (request.mode.encode ++
    (seq encodeEnvVar request.env ++ (seq encodeEnvVar request.setEnv ++
      Postcard.bool request.forwardAgent))))

/-- The fields with a default are read like the others: the format does not say that one is
missing. -/
def OpenSession.read : Reader Error OpenSession := do
  let command ← takeSeq takeStr
  let useShell ← takeBool
  let mode ← SessionMode.read
  let env ← takeSeq readEnvVar
  let setEnv ← takeSeq readEnvVar
  let forwardAgent ← takeBool
  return ⟨command, useShell, mode, env, setEnv, forwardAgent⟩

theorem OpenSession.takes {request : OpenSession} (h : request.encode.length < 2 ^ 64) :
    Takes read request.encode request := by
  simp only [encode, List.length_append] at h
  exact Takes.bind (takes_strs (by omega)) (Takes.bind (takes_bool _)
    (Takes.bind (SessionMode.takes (by omega)) (Takes.bind (takes_env (by omega))
      (Takes.bind (takes_env (by omega)) (Takes.bind_pure (takes_bool _) rfl)))))

def TcpTarget.encode (target : TcpTarget) : Bytes := Postcard.str target.host ++ u16 target.port

def TcpTarget.read : Reader Error TcpTarget := do
  let host ← takeStr
  let port ← readU16
  return ⟨host, port⟩

theorem TcpTarget.takes {target : TcpTarget} (h : target.encode.length < 2 ^ 64) :
    Takes read target.encode target := by
  have hhost := length_le_str target.host
  simp only [encode, List.length_append] at h
  exact Takes.bind (takes_str (by omega)) (Takes.bind_pure (takes_readU16 _) rfl)

def RemoteForwardRequest.encode (request : RemoteForwardRequest) : Bytes :=
  u64 request.forwardId ++ (Postcard.str request.listenHost ++ u16 request.listenPort)

def RemoteForwardRequest.read : Reader Error RemoteForwardRequest := do
  let forwardId ← readU64
  let listenHost ← takeStr
  let listenPort ← readU16
  return ⟨forwardId, listenHost, listenPort⟩

theorem RemoteForwardRequest.takes {request : RemoteForwardRequest}
    (h : request.encode.length < 2 ^ 64) : Takes read request.encode request := by
  have hhost := length_le_str request.listenHost
  simp only [encode, List.length_append] at h
  exact Takes.bind (takes_readU64 _) (Takes.bind (takes_str (by omega))
    (Takes.bind_pure (takes_readU16 _) rfl))

/-- The signals in the order of their variants. -/
def RemoteSignal.variants : List RemoteSignal :=
  [.sigabrt, .sigalrm, .sigfpe, .sighup, .sigill, .sigint, .sigkill, .sigpipe, .sigquit, .sigsegv,
    .sigterm, .sigusr1, .sigusr2]

def RemoteSignal.encode (signal : RemoteSignal) : Bytes := varint (variants.idxOf signal)

def RemoteSignal.read : Reader Error RemoteSignal := do
  match variants[← takeU32]? with
  | some signal => return signal
  | none => throw .badVariant

theorem RemoteSignal.takes (signal : RemoteSignal) : Takes read signal.encode signal := by
  cases signal <;> exact Takes.bind_pure (takes_u32 (by decide)) rfl

def ProcessExit.encode : ProcessExit → Bytes
  | .code n => varint 0 ++ i32 n
  | .signal sig => varint 1 ++ sig.encode

def ProcessExit.read : Reader Error ProcessExit := do
  match ← takeU32 with
  | 0 => return .code (← takeI32)
  | 1 => return .signal (← RemoteSignal.read)
  | _ => throw .badVariant

theorem ProcessExit.takes (status : ProcessExit) : Takes read status.encode status := by
  cases status with
  | code n => exact takes_variant (by decide) (Takes.bind_pure (takes_i32 n) rfl)
  | signal sig => exact takes_variant (by decide) (Takes.bind_pure sig.takes rfl)

/-! The messages of a copy. -/

def readDirection : Reader Error FileCopyDirection := do
  match ← takeU32 with
  | 0 => return .upload
  | 1 => return .download
  | _ => throw .badVariant

theorem takes_direction (direction : FileCopyDirection) :
    Takes readDirection direction.encode direction := by
  cases direction <;> exact Takes.bind_pure (takes_u32 (by decide)) rfl

def readCompression : Reader Error FileCopyCompression := do
  match ← takeU32 with
  | 0 => return .none
  | 1 => return .zstd
  | _ => throw .badVariant

theorem takes_compression (compression : FileCopyCompression) :
    Takes readCompression compression.encode compression := by
  cases compression <;> exact Takes.bind_pure (takes_u32 (by decide)) rfl

def readEntry : Reader Error FileCopyEntry := do
  let path ← takeStr
  let archiveName ← takeStr
  return ⟨path, archiveName⟩

theorem takes_entry {entry : FileCopyEntry} (h : entry.encode.length < 2 ^ 64) :
    Takes readEntry entry.encode entry := by
  have hpath := length_le_str entry.path
  have hname := length_le_str entry.archiveName
  simp only [FileCopyEntry.encode, List.length_append] at h
  exact Takes.bind (takes_str (by omega)) (Takes.bind_pure (takes_str (by omega)) rfl)

theorem length_entry_pos (entry : FileCopyEntry) : 0 < entry.encode.length := by
  have hpos := length_str_pos entry.path
  rw [FileCopyEntry.encode, List.length_append]
  omega

theorem takes_entries {entries : List FileCopyEntry}
    (h : (seq FileCopyEntry.encode entries).length < 2 ^ 64) :
    Takes (takeSeq readEntry) (seq FileCopyEntry.encode entries) entries :=
  takes_items length_entry_pos (fun _ => takes_entry) h

def readRequest : Reader Error FileCopyRequest := do
  let direction ← readDirection
  let entries ← takeSeq readEntry
  let destination ← takeStr
  let compression ← readCompression
  return ⟨direction, entries, destination, compression⟩

theorem takes_request {request : FileCopyRequest} (h : request.encode.length < 2 ^ 64) :
    Takes readRequest request.encode request := by
  have hdest := length_le_str request.destination
  simp only [FileCopyRequest.encode, List.append_assoc, List.length_append] at h ⊢
  exact Takes.bind (takes_direction _) (Takes.bind (takes_entries (by omega))
    (Takes.bind (takes_str (by omega)) (Takes.bind_pure (takes_compression _) rfl)))

def readPlan : Reader Error FileCopyPlan := do
  let extractDir ← takeStr
  let entries ← takeSeq readEntry
  return ⟨extractDir, entries⟩

theorem takes_plan {plan : FileCopyPlan} (h : plan.encode.length < 2 ^ 64) :
    Takes readPlan plan.encode plan := by
  have hdir := length_le_str plan.extractDir
  simp only [FileCopyPlan.encode, List.length_append] at h
  exact Takes.bind (takes_str (by omega)) (Takes.bind_pure (takes_entries (by omega)) rfl)

def readResponse : Reader Error StreamResponse := do
  match ← takeU32 with
  | 0 => return .ok
  | 1 => return .sessionReady
  | 2 => return .fileCopyReady (← readPlan)
  | 3 => return .error (← takeStr)
  | _ => throw .badVariant

theorem takes_response {response : StreamResponse} (h : response.encode.length < 2 ^ 64) :
    Takes readResponse response.encode response := by
  cases response with
  | ok => exact Takes.bind_pure (takes_u32 (by decide)) rfl
  | sessionReady => exact Takes.bind_pure (takes_u32 (by decide)) rfl
  | fileCopyReady plan =>
    simp only [StreamResponse.encode, List.length_append] at h
    exact takes_variant (by decide) (Takes.bind_pure (takes_plan (by omega)) rfl)
  | error err =>
    have herr := length_le_str err
    simp only [StreamResponse.encode, List.length_append] at h
    exact takes_variant (by decide) (Takes.bind_pure (takes_str (by omega)) rfl)

/-! The message that opens a stream. -/

def StreamOpen.encode : StreamOpen → Bytes
  | .session request => varint 0 ++ request.encode
  | .sessionStderr => varint 1
  | .sessionExitStatus status => varint 2 ++ status.encode
  | .sessionError err => varint 3 ++ Postcard.str err
  | .resize size => varint 4 ++ size.encode
  | .signal sig => varint 5 ++ sig.encode
  | .openRemoteForward request => varint 6 ++ request.encode
  | .localTcpForward target => varint 7 ++ target.encode
  | .remoteTcpForward forwardId => varint 8 ++ u64 forwardId
  | .fileCopy request => request.streamOpen
  | .agentForward bindSignature => varint 10 ++ seq byte bindSignature

def StreamOpen.read : Reader Error StreamOpen := do
  match ← takeU32 with
  | 0 => return .session (← OpenSession.read)
  | 1 => return .sessionStderr
  | 2 => return .sessionExitStatus (← ProcessExit.read)
  | 3 => return .sessionError (← takeStr)
  | 4 => return .resize (← TermSize.read)
  | 5 => return .signal (← RemoteSignal.read)
  | 6 => return .openRemoteForward (← RemoteForwardRequest.read)
  | 7 => return .localTcpForward (← TcpTarget.read)
  | 8 => return .remoteTcpForward (← readU64)
  | 9 => return .fileCopy (← readRequest)
  | 10 => return .agentForward (← takeSeq takeByte)
  | _ => throw .badVariant

theorem StreamOpen.takes {message : StreamOpen} (h : message.encode.length < 2 ^ 64) :
    Takes read message.encode message := by
  cases message with
  | sessionStderr => exact Takes.bind_pure (takes_u32 (by decide)) rfl
  | session request =>
    simp only [encode, List.length_append] at h
    exact takes_variant (by decide) (Takes.bind_pure (OpenSession.takes (by omega)) rfl)
  | sessionExitStatus status =>
    exact takes_variant (by decide) (Takes.bind_pure status.takes rfl)
  | sessionError err =>
    have herr := length_le_str err
    simp only [encode, List.length_append] at h
    exact takes_variant (by decide) (Takes.bind_pure (takes_str (by omega)) rfl)
  | resize size => exact takes_variant (by decide) (Takes.bind_pure size.takes rfl)
  | signal sig => exact takes_variant (by decide) (Takes.bind_pure sig.takes rfl)
  | openRemoteForward request =>
    simp only [encode, List.length_append] at h
    exact takes_variant (by decide) (Takes.bind_pure (RemoteForwardRequest.takes (by omega)) rfl)
  | localTcpForward target =>
    simp only [encode, List.length_append] at h
    exact takes_variant (by decide) (Takes.bind_pure (TcpTarget.takes (by omega)) rfl)
  | remoteTcpForward forwardId =>
    exact takes_variant (by decide) (Takes.bind_pure (takes_readU64 _) rfl)
  | fileCopy request =>
    simp only [encode, FileCopyRequest.streamOpen, List.length_append] at h
    exact takes_variant (by decide) (Takes.bind_pure (takes_request (by omega)) rfl)
  | agentForward bindSignature =>
    simp only [encode, List.length_append] at h
    have hbytes : Takes (takeSeq takeByte) (seq byte bindSignature) bindSignature :=
      takes_items length_byte_pos (fun b _ => takes_byte b) (by omega)
    exact takes_variant (by decide) (Takes.bind_pure hbytes rfl)

def StreamOpen.format : Format StreamOpen where
  encode := encode
  read := read
  takes _ := takes

def responseFormat : Format StreamResponse where
  encode := StreamResponse.encode
  read := readResponse
  takes _ := takes_response

end Hush.Protocol
