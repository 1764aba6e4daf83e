import Athena.Core.Version
import Athena.Ledger.Table

/-!
# The ledger client

`LedgerClient.init` and `LedgerClient.append` are the two writers. Each takes
the circumstances of the call: the clocks, the statement that fails if one
does, and whether a failing INSERT had already drawn its sequence value. A
`World` is the one connection together with the clients constructed on it, and
a `Run` is any sequence of constructions and appends from an empty database.
-/

namespace Athena

def emptyParamHash : String := "44136fa355b3678a1146ad16f7e8649e94fb4fc21fe77e8310c060f61caaff8a"

def ledgerClientModuleVersion : String := "ledger_client.v0.1.0"

def ledgerEventTypeV1 : List String := ["genesis", "schema_segment_transition"]

/-- `pre_trade_ledger_raw` and the last value drawn from its sequence. -/
structure Ledger where
  table : LedgerTable
  sequence : Int

def Ledger.empty : Ledger := ⟨LedgerTable.empty, 0⟩

/-- The statements a client executes. `currvalNoRow` is the `currval` query
returning no row, which the code checks for. -/
inductive Statement
  | createSchema
  | select
  | insert
  | currval
  | currvalNoRow
  deriving DecidableEq, Repr

/-- The circumstances of one call. -/
structure CallEnv where
  now : Int
  createdAtUtc : Int
  fails : Option Statement
  drawn : Bool
  deriving DecidableEq, Repr

/-- A client, with the `POLICY_VERSION_SHA` of the process it lives in. -/
structure LedgerClient where
  userId : Int
  moduleVersion : String
  policyVersionSha : String
  deriving DecidableEq, Repr

def createPreTradeLedger (db : Option Ledger) : Ledger := db.getD Ledger.empty

/-- `INSERT ... VALUES (nextval('seq_pre_trade_ledger_id'), ...)`. An INSERT that
fails adds no row; the value it may have drawn is not given back. -/
def Ledger.insertRow (l : Ledger) (env : CallEnv) (row : Int → Row) : Except PyErr Unit × Ledger :=
  match if env.fails = some .insert then none else l.table.insert? (row (l.sequence + 1)) with
  | some table => (.ok (), ⟨table, l.sequence + 1⟩)
  | none => (.error .duckdbError, if env.drawn then ⟨l.table, l.sequence + 1⟩ else l)

def genesisPayload (policyVersionSha : String) : PyValue :=
  .dict [(PyStr.ofString "note", .str (PyStr.ofString "ledger genesis — chain segment start")),
    (PyStr.ofString "policy_version_git_sha", .str (PyStr.ofString policyVersionSha))]

namespace LedgerClient

variable (sha256 : Bytes → Bytes)

/-- The row an INSERT of this client writes. -/
def rowOf (c : LedgerClient) (env : CallEnv) (f : EntryFields) (thisHash paramHash : String)
    (id : Int) : Row :=
  { id := id
    timestamp := env.now
    moduleVersion := c.moduleVersion
    policyVersionGitSha := f.policyVersionGitSha
    userId := f.userId
    eventType := f.eventType
    payloadJson := f.payloadJson
    prevHash := f.prevHash
    thisHash := thisHash
    paramHash := paramHash
    createdAtUtc := env.createdAtUtc }

/-- The common part of both writers: serialise, hash, insert. -/
def write (c : LedgerClient) (env : CallEnv) (prevHash : Option String) (eventType : String)
    (payload : PyValue) (paramHash : String) (l : Ledger) : Except PyErr Unit × Ledger :=
  match canonicalJson payload with
  | .error e => (.error e, l)
  | .ok payloadJson =>
    let f : EntryFields :=
      { prevHash := prevHash
        payloadJson := payloadJson
        policyVersionGitSha := c.policyVersionSha
        eventType := eventType
        userId := c.userId }
    match computeEntryHash sha256 f with
    | .error e => (.error e, l)
    | .ok thisHash => l.insertRow env (c.rowOf env f thisHash paramHash)

def ensureGenesis (c : LedgerClient) (env : CallEnv) (l : Ledger) : Except PyErr Unit × Ledger :=
  if env.fails = some .select then (.error .duckdbError, l)
  else if l.table.rows.any fun r => r.id = 1 then (.ok (), l)
  else c.write sha256 env none "genesis" (genesisPayload c.policyVersionSha) emptyParamHash l

/-- `LedgerClient.__init__`. -/
def init (c : LedgerClient) (env : CallEnv) (db : Option Ledger) :
    Except PyErr Unit × Option Ledger :=
  if env.fails = some .createSchema then (.error .duckdbError, db)
  else
    let out := c.ensureGenesis sha256 env (createPreTradeLedger db)
    (out.1, some out.2)

/-- `SELECT this_hash FROM pre_trade_ledger_raw ORDER BY id DESC LIMIT 1`. -/
def selectTip (l : Ledger) : Option String := l.table.byId.getLast?.map Row.thisHash

/-- `LedgerClient.append`: the assigned id, or the exception, and the ledger it leaves. -/
def append (c : LedgerClient) (env : CallEnv) (eventType : String) (payload : PyValue)
    (paramHash : String) (l : Ledger) : Except PyErr Int × Ledger :=
  if env.fails = some .select then (.error .duckdbError, l)
  else
    match selectTip l with
    | none =>
      (.error (.runtimeError
        "pre_trade_ledger_raw has no genesis — LedgerClient __init__ failed?"), l)
    | some prevHash =>
      match c.write sha256 env (some prevHash) eventType payload paramHash l with
      | (.error e, l') => (.error e, l')
      | (.ok (), l') =>
        if env.fails = some .currval then (.error .duckdbError, l')
        else if env.fails = some .currvalNoRow then
          (.error (.runtimeError ("currval('seq_pre_trade_ledger_id') returned no row — " ++
            "sequence should have advanced on the preceding INSERT")), l')
        else (.ok l'.sequence, l')

end LedgerClient

/-- A call of the client API. -/
inductive Call
  | construct (client : LedgerClient) (env : CallEnv)
  | append (client : LedgerClient) (env : CallEnv) (eventType : String) (payload : PyValue)
      (paramHash : String)

namespace Call

def client : Call → LedgerClient
  | construct c _ => c
  | append c _ _ _ _ => c

def eventType : Call → String
  | construct _ _ => "genesis"
  | append _ _ eventType _ _ => eventType

def payload : Call → PyValue
  | construct c _ => genesisPayload c.policyVersionSha
  | append _ _ _ payload _ => payload

def paramHash : Call → String
  | construct _ _ => emptyParamHash
  | append _ _ _ _ paramHash => paramHash

/-- Neither the event type nor the policy SHA contains U+0000. -/
def NulFree (call : Call) : Prop :=
  Athena.NulFree call.eventType ∧ Athena.NulFree call.client.policyVersionSha

instance (call : Call) : Decidable call.NulFree := inferInstanceAs (Decidable (_ ∧ _))

/-- The event type is one of `LedgerEventTypeV1`, and the policy SHA is one that
`athena.core.version` can produce. -/
def Declared (call : Call) : Prop :=
  call.eventType ∈ ledgerEventTypeV1 ∧ ∃ raw, call.client.policyVersionSha = extractPolicySha raw

theorem Declared.nulFree {call : Call} (h : call.Declared) : call.NulFree := by
  obtain ⟨hevent, raw, hraw⟩ := h
  refine ⟨?_, hraw ▸ extractPolicySha_nulFree raw⟩
  simp only [ledgerEventTypeV1, List.mem_cons, List.not_mem_nil, or_false] at hevent
  rcases hevent with h | h <;> rw [h] <;> decide

end Call

/-- The connection and the clients that have been constructed on it. -/
structure World where
  db : Option Ledger
  clients : List LedgerClient

namespace World

def empty : World := ⟨none, []⟩

def ledger (w : World) : Ledger := w.db.getD Ledger.empty

/-- The rows of `pre_trade_ledger_raw`; none before the schema exists. -/
def table (w : World) : LedgerTable := w.ledger.table

/-- An append needs a client, so its constructor must have returned. -/
def Allows (w : World) : Call → Prop
  | .construct _ _ => True
  | .append c _ _ _ _ => c ∈ w.clients

instance (w : World) : (call : Call) → Decidable (w.Allows call)
  | .construct _ _ => .isTrue trivial
  | .append c _ _ _ _ => inferInstanceAs (Decidable (c ∈ w.clients))

variable (sha256 : Bytes → Bytes)

def step (w : World) : Call → World
  | .construct c env =>
    let out := c.init sha256 env w.db
    ⟨out.2, match out.1 with
      | .ok () => c :: w.clients
      | .error _ => w.clients⟩
  | .append c env eventType payload paramHash =>
    ⟨some (c.append sha256 env eventType payload paramHash w.ledger).2, w.clients⟩

end World

/-- A run of the client API from an empty database, oldest call first. -/
inductive Run (sha256 : Bytes → Bytes) : List Call → World → Prop
  | start : Run sha256 [] World.empty
  | call {calls w} (call : Call) :
      Run sha256 calls w → w.Allows call → Run sha256 (calls ++ [call]) (w.step sha256 call)

end Athena
