import StorageServer.Client.Connection
import StorageServer.Server.Requests
import StorageServer.Server.Threads

/-! The server together with its clients. Each client runs its program; between it and the server
there are the requests that the server has not read and the replies that the client has not read.
The server serves a request in one piece, as it does for all that its clients can see. A client is
not killed while it waits, and no call on the socket fails. -/
namespace StorageServer.Deployment
open Common Library.Calls Library.Runs Server
open StorageServer.Client (Api ApiStatus ClientCall ClientEvent ClientState CmdLineOpt FileCall
  Machine Res afterOpening afterOptions closeConnection parseArguments replyStatus sessionRequest
  waitServerResponse)

/-! ### Clients and connections -/

/-- What a client is doing. Of one that has gone the server has not learnt yet. -/
inductive Process
  | absent
  | running (rest : Api Res)
  | waiting (next : Option SockMessage → Api Res)
  | gone

/-- A client, its requests that have not been read, and the replies that it has not read. -/
structure Connection where
  process : Process
  requests : List SockMessage
  replies : List SockMessage

structure Deployed where
  server : ServerState
  connection : Client → Connection

inductive DeployedEvent
  | connects (client : Client)
  | acts (client : Client) (e : ClientEvent)
  | sends (client : Client) (msg : SockMessage)
  | serves (e : ServerEvent)
  | receives (client : Client) (reply : SockMessage)
  | leaves (client : Client)

/-- The calls that are not made to the server. -/
def Local : ClientCall → Prop
  | .exchange _ => False
  | .uuidNew | .contents _ | .saveAsFile .. | .nftw _ => True

/-- What a client does once its socket is connected. -/
def session (machine : Machine) (state : ClientState) : Api Res :=
  sessionRequest .reqOpenSession >>= afterOpening machine state

/-- What is written to the client after its request, unless the client has been queued. -/
def answer (msg response : SockMessage) : List SockMessage :=
  if LockPostponed msg response then [] else [response]

/-- The message of the lock thread. -/
def lockResponse (uid : UUID) (notification : FSLockNotification) : SockMessage :=
  handleError notification.status { uid := uid, type := .respSimple, response := ⟨.ok, []⟩ }

namespace Deployed

def start (configs : FSConfig) : Deployed where
  server := .start configs
  connection _ := ⟨.absent, [], []⟩

def set (s : Deployed) (client : Client) (connection : Connection) : Deployed :=
  { s with connection := Function.update s.connection client connection }

/-- A client may leave whenever it is not waiting, whether it has returned or has been killed. -/
inductive Step : Deployed → DeployedEvent → Deployed → Prop
  | connects {s client argv state} (machine : Machine) (hargs : parseArguments argv = .ok state)
      (h : (s.connection client).process = .absent) :
    Step s (.connects client) (s.set client ⟨.running (session machine state), [], []⟩)
  | acts {s client i next requests replies}
      (h : s.connection client = ⟨.running (.call i next), requests, replies⟩) (hi : Local i)
      (r : i.Result) :
    Step s (.acts client ⟨i,r⟩) (s.set client ⟨.running (next r), requests, replies⟩)
  | sends {s client msg next requests replies}
      (h : s.connection client = ⟨.running (.call (.exchange msg) next), requests, replies⟩) :
    Step s (.sends client msg) (s.set client ⟨.waiting next, requests ++ [msg], replies⟩)
  | serves {s client msg rand response process requests replies server}
      (h : s.connection client = ⟨process, msg::requests, replies⟩)
      (hs : s.server.Step (.request client msg rand response) server) :
    Step s (.serves (.request client msg rand response))
      ({ s with server := server }.set client
        ⟨process, requests, replies ++ answer msg response⟩)
  | delivers {s n server process requests replies} {client : Client} (hc : (client : ℤ) = n.fd)
      (h : s.connection client = ⟨process, requests, replies⟩)
      (hs : s.server.Step (.delivery n) server) (uid : UUID) :
    Step s (.serves (.delivery n))
      ({ s with server := server }.set client
        ⟨process, requests, replies ++ [lockResponse uid n]⟩)
  | receives {s client next requests reply replies}
      (h : s.connection client = ⟨.waiting next, requests, reply::replies⟩) :
    Step s (.receives client reply)
      (s.set client ⟨.running (next (some reply)), requests, replies⟩)
  | leaves {s client rest requests replies}
      (h : s.connection client = ⟨.running rest, requests, replies⟩) :
    Step s (.leaves client) (s.set client ⟨.gone, requests, replies⟩)
  | ended {s client replies server} (h : s.connection client = ⟨.gone, [], replies⟩)
      (hs : s.server.Step (.endOfFile client) server) :
    Step s (.serves (.endOfFile client))
      ({ s with server := server }.set client ⟨.absent, [], []⟩)

end Deployed

/-! ### The order of the requests of a client -/

/-- How far a client is with its session. -/
inductive Stage
  | fresh
  | opened
  | closed
  deriving DecidableEq

/-- The requests of a program keep to the protocol: a session is opened first, and while it is open
there are requests for files. -/
inductive Follows : Stage → Api Res → Prop
  | ret (stage : Stage) (res : Res) : Follows stage (.ret res)
  | acts {stage i next} (hi : Local i) (h : ∀ r, Follows stage (next r)) :
    Follows stage (.call i next)
  | opens {msg next} (ht : msg.type = .reqOpenSession)
      (hsucc : ∀ reply, replyStatus reply = .success → Follows .opened (next reply))
      (hfail : ∀ reply, replyStatus reply = .failure → Follows .closed (next reply)) :
    Follows .fresh (.call (.exchange msg) next)
  | asks {msg next} (h : FileCall (.exchange msg)) (hn : ∀ reply, Follows .opened (next reply)) :
    Follows .opened (.call (.exchange msg) next)
  | closes {msg next} (ht : msg.type = .reqCloseSession)
      (hn : ∀ reply, Follows .closed (next reply)) :
    Follows .opened (.call (.exchange msg) next)

/-- A part that only makes requests for files. -/
theorem follows_bind {α : Type} {good : α → Prop} {p : Api α} {f : α → Api Res}
    (h : Client.ForFiles good p) (hf : ∀ a, Follows .opened (f a)) :
    Follows .opened (p >>= f) := by
  induction p with
  | ret a => exact hf a
  | call i next ih =>
    have hnext : ∀ r, Follows .opened (next r >>= f) := fun r => ih r ((h.2 r).2 id)
    cases i with
    | exchange msg => exact .asks h.1 hnext
    | uuidNew | contents | saveAsFile | nftw => exact .acts trivial hnext

theorem follows_sessionRequest {stage : Stage} {type : SockMessageType} {f : ApiStatus → Api Res}
    (h : ∀ msg next, msg.type = type → (∀ reply, next reply = f (replyStatus reply)) →
      Follows stage (.call (.exchange msg) next)) :
    Follows stage (sessionRequest type >>= f) := by
  refine .acts trivial fun uid => h _ _ rfl fun reply => ?_
  change waitServerResponse none reply >>= f = _
  rw [Client.waitServerResponse_none]
  rfl

theorem follows_afterOptions (machine : Machine) (res : Res) :
    Follows .opened (afterOptions machine res) := by
  cases res with
  | error => exact .ret _ _
  | ok =>
    unfold afterOptions closeConnection
    refine .acts trivial fun uid => .closes rfl fun (reply : Option SockMessage) => ?_
    change Follows .closed ((waitServerResponse none reply >>= _) >>= _)
    rw [Client.waitServerResponse_none]
    cases replyStatus reply with
    | failure => exact .ret _ _
    | success => cases machine.close <;> exact .ret _ _

/-- A client keeps to the protocol. -/
theorem follows_session (machine : Machine) {state : ClientState}
    (ho : ∀ o ∈ state.options, o.WellFormed) : Follows .fresh (session machine state) := by
  refine follows_sessionRequest fun msg next ht hnext => .opens ht (fun reply hr => ?_)
    fun reply hr => ?_
  · rw [hnext, hr]
    exact follows_bind (Client.handleEach_forFiles _ ho) (follows_afterOptions machine)
  · rw [hnext, hr]
    exact .ret _ _

end StorageServer.Deployment
