import MockMessageBoard.Lib.Rpc.Runtime
import MockMessageBoard.Board.Filter
import MockMessageBoard.QueryUid

/-!
# MockMessageBoard — the services

The handlers of the three services and the callbacks of the client, statement
by statement, as programs over the RPC runtime: `MessageService.cpp`,
`SanitizationService.cpp`, `MockDatabase.cpp` and `Client.cpp`, with the types
of `mock_message_board.thrift`.

Queries carry their `query_uid` as `i64`; the client and `add_entry` convert it
from and to `uint64_t`. What `add_entry` is given besides the uid is the time,
which the runtime stamps on every action.

The client's `main` sends one query after the other. Each iteration is a program of
its own, up to the end of the callback that its reply triggers: a reply of the
pipelined client is handled while later iterations are under way.
-/

namespace MockMessageBoard

open TextFile Rpc

-- ---------------------------------------------------------------------------
-- mock_message_board.thrift
-- ---------------------------------------------------------------------------

structure MessageResponse where
  message : Text
  queryUid : Int64
  deriving DecidableEq

structure StatusResponse where
  ok : Bool
  queryUid : Int64
  deriving DecidableEq

/-- One iteration of the client's loop: `find_last_message` or `send_message`. -/
inductive Query where
  | find (clientId : Text) (queryUid : UInt64)
  | send (clientId message : Text) (queryUid : UInt64)
  deriving DecidableEq

/-- The processes that call `add_entry`, each with a manager of its own. -/
inductive Service where
  | client (pid : Nat)
  | messageService
  | sanitizationService
  | mockDatabase
  deriving DecidableEq

/-- The client's queries and the methods of the three services. -/
inductive Request where
  | query (pid : Nat) (q : Query)
  | findLastMessage (clientId : Text) (queryUid : Int64)
  | sendMessage (clientId message : Text) (queryUid : Int64)
  | sanitizeMessage (clientId message : Text) (queryUid : Int64)
  | mockFindLastMessage (clientId : Text) (queryUid : Int64)
  | storeMessage (clientId message : Text) (queryUid : Int64)
  deriving DecidableEq

/-- The results of the methods. -/
inductive Value where
  | message (resp : MessageResponse)
  | status (resp : StatusResponse)
  | bool (b : Bool)
  | string (t : Text)
  deriving DecidableEq

-- ---------------------------------------------------------------------------
-- The state the handlers share
-- ---------------------------------------------------------------------------

structure Store where
  /-- `MockDatabaseHandler::last_messages` -/
  lastMessages : Text → Option Text
  /-- `find_success_counter` of each client process -/
  findSuccessCounter : Nat → Nat
  /-- `send_success_counter` of each client process -/
  sendSuccessCounter : Nat → Nat

inductive Access where
  /-- `last_messages.find(client_id) == last_messages.end()`, negated -/
  | contains (clientId : Text)
  /-- `last_messages[client_id]`, read -/
  | lookup (clientId : Text)
  /-- `last_messages[client_id] = message` -/
  | assign (clientId message : Text)
  /-- `find_success_counter += 1` -/
  | bumpFind (pid : Nat)
  /-- `send_success_counter += 1` -/
  | bumpSend (pid : Nat)
  deriving DecidableEq

structure View where
  found : Bool
  message : Text
  deriving DecidableEq

/-- An access that returns nothing. -/
def View.unit : View := ⟨false, []⟩

/-- `unordered_map::operator[]` inserts an empty string where the key is new. -/
def Access.exec (a : Access) (s : Store) : Store × View :=
  match a with
  | .contains clientId => (s, ⟨(s.lastMessages clientId).isSome, []⟩)
  | .lookup clientId =>
    match s.lastMessages clientId with
    | some message => (s, ⟨true, message⟩)
    | none =>
      ({ s with lastMessages := Function.update s.lastMessages clientId (some []) }, ⟨true, []⟩)
  | .assign clientId message =>
    ({ s with lastMessages := Function.update s.lastMessages clientId (some message) }, .unit)
  | .bumpFind pid =>
    let count := s.findSuccessCounter pid + 1
    ({ s with findSuccessCounter := Function.update s.findSuccessCounter pid count }, .unit)
  | .bumpSend pid =>
    let count := s.sendSuccessCounter pid + 1
    ({ s with sendSuccessCounter := Function.update s.sendSuccessCounter pid count }, .unit)

/-- A handler records query uids. -/
abbrev sig : Signature where
  Svc := Service
  Op := Request
  Val := Value
  Acc := Access
  View := View
  Note := UInt64
  Store := Store

instance : DecidableEq sig.Svc := inferInstanceAs (DecidableEq Service)

-- ---------------------------------------------------------------------------
-- MockDatabase.cpp
-- ---------------------------------------------------------------------------

/-- What `find_last_message` returns for an unknown client. -/
def warning (clientId : Text) : Text :=
  "WARNING: This user ".toList ++ clientId ++
    " didn't post any message or doesn't exist...".toList

namespace MockDatabaseHandler

def findLastMessage (clientId : Text) (queryUid : Int64) : Prog sig :=
  .record queryUid.toUInt64 <|
  .sleep <|
  .access (.contains clientId) fun search =>
    if search.found then
      .access (.lookup clientId) fun result =>
        .record queryUid.toUInt64 (.ret (.string result.message))
    else .record queryUid.toUInt64 (.ret (.string (warning clientId)))

def storeMessage (clientId message : Text) (queryUid : Int64) : Prog sig :=
  .record queryUid.toUInt64 <|
  .sleep <|
  .access (.assign clientId message) fun _ =>
    .record queryUid.toUInt64 (.ret (.bool true))

end MockDatabaseHandler

-- ---------------------------------------------------------------------------
-- Remote tasks
-- ---------------------------------------------------------------------------

/-- Whether `SYNC` is defined. -/
inductive Build where
  | sync
  | async
  deriving DecidableEq

/-- The remote and the fake task of a handler, which goes on with `k` and the
result. With `SYNC` the call is made through the client that the thread finds
in its map, or through a new one it puts there, and is over before the fake
task; otherwise it overlaps the fake task. -/
def remoteTask (build : Build) (target : Service) (op : Request) (k : Value → Prog sig) :
    Prog sig :=
  match build with
  | .sync =>
    let call : Prog sig := .start op (.await fun v => .sleep (k v))
    .findClient target fun found => if found then call else .newClient target call
  | .async => .start op (.sleep (.await k))

-- ---------------------------------------------------------------------------
-- SanitizationService.cpp
-- ---------------------------------------------------------------------------

/-- The filtered exit returns past the second `add_entry`. -/
def SanitizationHandler.sanitizeMessage (build : Build) (clientId message : Text)
    (queryUid : Int64) : Prog sig :=
  .record queryUid.toUInt64 <|
  if Regex.regexMatch matchExpr message then .ret (.bool false)
  else
    remoteTask build .mockDatabase (.storeMessage clientId message queryUid) fun
      | .bool res => .record queryUid.toUInt64 (.ret (.bool res))
      | _ => .throw

-- ---------------------------------------------------------------------------
-- MessageService.cpp
-- ---------------------------------------------------------------------------

namespace MessageServiceHandler

def findLastMessage (build : Build) (clientId : Text) (queryUid : Int64) : Prog sig :=
  .record queryUid.toUInt64 <|
  remoteTask build .mockDatabase (.mockFindLastMessage clientId queryUid) fun
    | .string message => .record queryUid.toUInt64 (.ret (.message ⟨message, queryUid⟩))
    | _ => .throw

def sendMessage (build : Build) (clientId message : Text) (queryUid : Int64) : Prog sig :=
  .record queryUid.toUInt64 <|
  remoteTask build .sanitizationService (.sanitizeMessage clientId message queryUid) fun
    | .bool res => .record queryUid.toUInt64 (.ret (.status ⟨res, queryUid⟩))
    | _ => .throw

end MessageServiceHandler

-- ---------------------------------------------------------------------------
-- Client.cpp
-- ---------------------------------------------------------------------------

namespace Client

def onFindReply (pid : Nat) (resp : MessageResponse) : Prog sig :=
  .access (.bumpFind pid) fun _ =>
    .record resp.queryUid.toUInt64 (.ret (.message resp))

def onSendReply (pid : Nat) (resp : StatusResponse) : Prog sig :=
  .access (.bumpSend pid) fun _ =>
    .record resp.queryUid.toUInt64 (.ret (.status resp))

/-- One iteration of `main`'s loop with its callback. `onError` only prints. -/
def iteration (pid : Nat) : Query → Prog sig
  | .find clientId queryUid =>
    .record queryUid <|
    .start (.findLastMessage clientId queryUid.toInt64) <|
    .await fun
      | .message resp => onFindReply pid resp
      | _ => .throw
  | .send clientId message queryUid =>
    .record queryUid <|
    .start (.sendMessage clientId message queryUid.toInt64) <|
    .await fun
      | .status resp => onSendReply pid resp
      | _ => .throw

/-- The query of iteration `i` of `main`'s loop. -/
def query (clientUid : UInt64) (clientId message : Text) (i : Nat) : Query :=
  let queryUid := getQueryUid clientUid (UInt64.ofNat i)
  if i % 2 = 1 then .find clientId queryUid else .send clientId message queryUid

/-- The queries of a run of `main` with these arguments. -/
def queries (iterations : Int) (clientUid : UInt64) (clientId message : Text) : List Query :=
  let iterations := if iterations > 0 then iterations else 10
  (List.range iterations.toNat).map (query clientUid clientId message)

end Client

-- ---------------------------------------------------------------------------
-- The system
-- ---------------------------------------------------------------------------

/-- The code that serves a request. -/
def handler (build : Build) : Request → Prog sig
  | .query pid q => Client.iteration pid q
  | .findLastMessage clientId queryUid =>
    MessageServiceHandler.findLastMessage build clientId queryUid
  | .sendMessage clientId message queryUid =>
    MessageServiceHandler.sendMessage build clientId message queryUid
  | .sanitizeMessage clientId message queryUid =>
    SanitizationHandler.sanitizeMessage build clientId message queryUid
  | .mockFindLastMessage clientId queryUid =>
    MockDatabaseHandler.findLastMessage clientId queryUid
  | .storeMessage clientId message queryUid =>
    MockDatabaseHandler.storeMessage clientId message queryUid

/-- The process that serves a request. -/
def home : Request → Service
  | .query pid _ => .client pid
  | .findLastMessage .. | .sendMessage .. => .messageService
  | .sanitizeMessage .. => .sanitizationService
  | .mockFindLastMessage .. | .storeMessage .. => .mockDatabase

/-- A deployment of the message board: how the services are built, what each
client process sends, and which of them are built with `CLIENT_SYNC`. -/
structure Board where
  build : Build
  queries : Nat → List Query
  clientSync : Nat → Bool

/-- The running board, with an empty database. -/
def Board.deployment (b : Board) : Deployment sig where
  code := handler b.build
  home := home
  exec := Access.exec
  script := fun pid => (b.queries pid).map (.query pid)
  sequential := b.clientSync
  store₀ := ⟨fun _ => none, fun _ => 0, fun _ => 0⟩

abbrev Board.State := Rpc.State sig

/-- The state `s` occurs in a run of the board. -/
def Board.Reachable (b : Board) (s : Board.State) : Prop :=
  Transition.Reaches b.deployment.step b.deployment.init s

-- ---------------------------------------------------------------------------
-- Prompt schedules
-- ---------------------------------------------------------------------------

/-- One client process, which sends the queries without waiting for replies. -/
def oneClient (build : Build) (queries : List Query) : Board where
  build := build
  queries := fun pid => if pid = 0 then queries else []
  clientSync := fun _ => false

theorem mem_of_mem_queries {build : Build} {queries : List Query} {pid : Nat} {q : Query}
    (h : q ∈ (oneClient build queries).queries pid) : q ∈ queries := by
  by_cases hpid : pid = 0
  · simpa [oneClient, hpid] using h
  · simp [oneClient, hpid] at h

def albert : Text := "Albert".toList

def oneSender (message : Text) : Board := oneClient .async [.send albert message 0]

/-- `n` actions of the handler of `c`. -/
def runs (c : CallId) (n : Nat) : List Label := List.replicate n (.run c)

/-- A `send` on its way to the filter, with the clock ticking at each hop. -/
def sendToFilter (r : RequestId) : List Label :=
  [[.issue r.proc], runs ⟨r, 0⟩ 2, [.tick, .deliver ⟨r, 1⟩ 0], runs ⟨r, 1⟩ 2,
    [.tick, .deliver ⟨r, 2⟩ 0], runs ⟨r, 2⟩ 1].flatten

/-- The way of an accepted `send` from there to its assignment. -/
def filterToDatabase (r : RequestId) : List Label :=
  [runs ⟨r, 2⟩ 1, [.tick, .deliver ⟨r, 3⟩ 0], runs ⟨r, 3⟩ 3].flatten

/-- The way of the answer back to the client. -/
def databaseToClient (r : RequestId) : List Label :=
  [[.tick], runs ⟨r, 3⟩ 2, [.reply ⟨r, 2⟩], runs ⟨r, 2⟩ 4, [.reply ⟨r, 1⟩], runs ⟨r, 1⟩ 4,
    [.tick, .reply ⟨r, 0⟩], runs ⟨r, 0⟩ 4].flatten

/-- A `find`, from the client and back. -/
def findAndReturn (r : RequestId) : List Label :=
  [[.issue r.proc], runs ⟨r, 0⟩ 2, [.deliver ⟨r, 1⟩ 0], runs ⟨r, 1⟩ 2,
    [.tick, .deliver ⟨r, 2⟩ 0], runs ⟨r, 2⟩ 6, [.reply ⟨r, 1⟩], runs ⟨r, 1⟩ 4,
    [.reply ⟨r, 0⟩], runs ⟨r, 0⟩ 4].flatten

/-- A short message is sent, stored and acknowledged. -/
theorem hi_answered :
    ∃ s, (oneSender "hi".toList).Reachable s ∧
      s.calls ⟨⟨0, 0⟩, 0⟩ = some ⟨.query 0 (.send albert "hi".toList 0),
        .returned (.value (.status ⟨true, 0⟩)), none⟩ ∧
      s.history[15]? = some ⟨⟨⟨0, 0⟩, 1⟩, .messageService, 15, 4,
        .finish (.value (.status ⟨true, 0⟩))⟩ :=
  ⟨_, ⟨sendToFilter ⟨0, 0⟩ ++ filterToDatabase ⟨0, 0⟩ ++ databaseToClient ⟨0, 0⟩, rfl⟩, rfl, rfl⟩

end MockMessageBoard
