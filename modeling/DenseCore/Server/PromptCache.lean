/-
The prompt cache.

`Manager` of `server/internal/promptcache/cache.go` keeps the token lists of prompts that
were prefilled, each under the hash of its identity and tokens, and finds out how much of
a new prompt can be reused.  Two kinds of lists index the entries: by identity, and by
identity and session.  Entries expire, and they are evicted, oldest access first, while
there are too many or too many bytes.  The clock is read by the caller of a step; a loop
over a map takes its entries in an order of its own.  Metrics and the debug flag are left
out.
-/
import DenseCore.Lib.Table
import DenseCore.Server.ToolParser

namespace DenseCore.Server.PromptCache

open Lib (Bytes literal Table.get Table.without)

/-- The zero value is no mode yet; every other text behaves as `on`. -/
inductive Mode where
  | unset
  | auto
  | on
  | off
deriving DecidableEq, Repr

/-- The limits of a manager. -/
structure Config where
  mode : Mode := .unset
  maxBytes : Int := 0
  maxSessions : Int := 0
  ttl : Int := 0
deriving DecidableEq, Repr

/-- What two prompts must share to share a prefix. -/
structure Identity where
  modelID : Bytes := []
  modelPath : Bytes := []
  modelFingerprint : Bytes := []
  tokenizerHash : Bytes := []
  chatTemplateHash : Bytes := []
  toolSchemaHash : Bytes := []
  systemPromptHash : Bytes := []
  loraAdapterID : Bytes := []
  kvDType : Bytes := []
  ropeConfig : Bytes := []
  graphFamily : Bytes := []
  slidingWindow : Bytes := []
  ssmPolicy : Bytes := []
  parserFamily : Bytes := []
  conversationID : Bytes := []
  cacheID : Bytes := []
  affinityKey : Bytes := []
  requiresSSM : Bool := false
  hasSSMSnapshot : Bool := false
  supported : Bool := false
deriving DecidableEq, Repr

/-- Why a prefix is not reused. -/
inductive InvalidationReason where
  /-- `disabled_by_env` -/
  | disabledByEnv
  /-- `unsupported_model_family` -/
  | unsupportedModelFamily
  /-- `unsupported_graph_family` -/
  | unsupportedGraphFamily
  /-- `ssm_snapshot_missing` -/
  | ssmSnapshotMissing
deriving DecidableEq, Repr

/-- The answer to a lookup. -/
structure Decision where
  enabled : Bool := false
  hit : Bool := false
  cacheKey : Bytes := []
  reusedTokens : Nat := 0
  prefillTokensSkipped : Nat := 0
  invalidationReason : Option InvalidationReason := none
deriving DecidableEq, Repr

/-- A prompt that was stored. -/
structure Entry where
  key : Bytes
  lineage : Bytes
  identity : Identity
  tokens : List Int
  bytes : Int
  expiresAt : Int
  lastAccess : Int
  hasSSMSnapshot : Bool
deriving DecidableEq, Repr

/-- The entries, the keys under each lineage, and the bytes of all entries. -/
structure Manager where
  config : Config
  entries : List Entry
  lineage : Bytes → List Bytes
  bytes : Int

/-- The order in which a loop over the map takes its entries, in each of its rounds. -/
structure MapOrder where
  order : Nat → List Entry → List Entry
  perm : ∀ round l, (order round l).Perm l

/-- SHA-256. -/
structure Sha256 where
  sum : Bytes → Bytes
  length_sum : ∀ x, (sum x).length = 32

/-! ### Keys -/

/-- A hexadecimal digit in lower case. -/
def hexDigit (n : Nat) : UInt8 := UInt8.ofNat (if n < 10 then 0x30 + n else 0x61 + (n - 10))

/-- `hex.EncodeToString` -/
def hexEncode (s : Bytes) : Bytes :=
  s.flatMap fun b => [hexDigit (b.toNat / 16), hexDigit (b.toNat % 16)]

/-- `%d` -/
def formatInt (n : Int) : Bytes :=
  if n < 0 then 0x2D :: Lib.Float64.decimal n.natAbs else Lib.Float64.decimal n.natAbs

/-- The fields that are hashed. -/
def Identity.parts (identity : Identity) : List Bytes :=
  [identity.modelID, identity.modelPath, identity.modelFingerprint, identity.tokenizerHash,
    identity.chatTemplateHash, identity.toolSchemaHash, identity.systemPromptHash,
    identity.loraAdapterID, identity.kvDType, identity.ropeConfig, identity.graphFamily,
    identity.slidingWindow, identity.ssmPolicy, identity.parserFamily]

/-- What `CacheKey` writes into the hash. -/
def keyPreimage (identity : Identity) (tokens : List Int) : Bytes :=
  (identity.parts.flatMap fun part => part ++ [0]) ++
    tokens.flatMap fun tok => formatInt tok ++ [0x2C]

/-- The key of a prompt under an identity. -/
def cacheKey (sha : Sha256) (identity : Identity) (tokens : List Int) : Bytes :=
  hexEncode (sha.sum (keyPreimage identity tokens))

/-- Two identities agree in all that a prefix depends on. -/
def compatibleIdentity (a b : Identity) : Bool :=
  a.modelID = b.modelID && a.modelPath = b.modelPath &&
    a.modelFingerprint = b.modelFingerprint && a.tokenizerHash = b.tokenizerHash &&
    a.chatTemplateHash = b.chatTemplateHash && a.toolSchemaHash = b.toolSchemaHash &&
    a.systemPromptHash = b.systemPromptHash && a.loraAdapterID = b.loraAdapterID &&
    a.kvDType = b.kvDType && a.ropeConfig = b.ropeConfig && a.graphFamily = b.graphFamily &&
    a.slidingWindow = b.slidingWindow && a.ssmPolicy = b.ssmPolicy &&
    a.parserFamily = b.parserFamily

/-- The key of an identity without its conversation and its cache. -/
def lineageKey (sha : Sha256) (identity : Identity) : Bytes :=
  cacheKey sha { identity with conversationID := [], cacheID := [] } []

/-- The key of an identity within its session. -/
def sessionLineageKey (sha : Sha256) (identity : Identity) : Bytes :=
  lineageKey sha identity ++
    (0 :: identity.conversationID ++ (0 :: identity.cacheID ++ 0 :: identity.affinityKey))

/-- The identity names a session. -/
def Identity.hasSession (identity : Identity) : Bool :=
  identity.conversationID ≠ [] || identity.cacheID ≠ [] || identity.affinityKey ≠ []

/-- The length of the common prefix. -/
def commonPrefix : List Int → List Int → Nat
  | a :: as, b :: bs => if a = b then commonPrefix as bs + 1 else 0
  | _, _ => 0

/-- The tokens are the same. -/
def equalTokens (a b : List Int) : Bool :=
  a.length = b.length && commonPrefix a b = a.length

/-- Graphs whose state can not be cut at a prefix. -/
def isUnsafeGraphFamily (lower : Char → Char) (graphFamily slidingWindow : Bytes) : Bool :=
  let lowered := toLower lower (graphFamily ++ 0x20 :: slidingWindow)
  contains lowered (literal "sliding") || contains lowered (literal "sharedkv") ||
    contains lowered (literal "shared-kv")

/-! ### The manager -/

/-- `NewManager`, with its defaults. -/
def newManager (config : Config) : Manager where
  config :=
    { mode := if config.mode = .unset then .auto else config.mode
      maxBytes := if config.maxBytes ≤ 0 then 2 ^ 30 else config.maxBytes
      maxSessions := if config.maxSessions ≤ 0 then 1024 else config.maxSessions
      ttl := if config.ttl ≤ 0 then 3600 * 10 ^ 9 else config.ttl }
  entries := []
  lineage := fun _ => []
  bytes := 0

namespace Manager

/-- `m.entries[key]` -/
def get (m : Manager) (key : Bytes) : Option Entry := Table.get Entry.key key m.entries

variable (m : Manager) (sha : Sha256)

/-- `delete(m.entries, key)`, with the bytes of the entry. -/
def delete (key : Bytes) : Manager :=
  { m with
    entries := Table.without Entry.key key m.entries
    bytes := m.bytes - ((m.get key).map Entry.bytes).getD 0 }

/-- The entries that have not expired stay. -/
def evictExpiredLocked (now : Int) : Manager :=
  { m with
    entries := m.entries.filter fun e => ¬ e.expiresAt < now
    bytes := m.bytes - ((m.entries.filter fun e => e.expiresAt < now).map Entry.bytes).sum }

/-- The loop that finds the entry with the oldest access. -/
def oldestKey : Bytes → Int → List Entry → Bytes
  | key, _, [] => key
  | key, oldest, e :: rest =>
    if key = [] ∨ e.lastAccess < oldest then oldestKey e.key e.lastAccess rest
    else oldestKey key oldest rest

/-- There are too many entries, or too many bytes. -/
def overLimit : Bool :=
  m.config.maxBytes < m.bytes || m.config.maxSessions < (m.entries.length : Int)

/-- A round takes an entry out, so one round more than entries is enough. -/
def evictPressure (order : MapOrder) : Nat → Manager → Manager
  | 0, m => m
  | fuel + 1, m =>
    if m.overLimit = true then
      let key := oldestKey [] 0 (order.order fuel m.entries)
      if key = [] then m else evictPressure order fuel (m.delete key)
    else m

/-- Entries go, the longest unused first, until the limits hold. -/
def evictPressureLocked (order : MapOrder) : Manager :=
  evictPressure order (m.entries.length + 1) m

/-- `m.lineage[line] = append(m.lineage[line], key)` -/
def addLineage (line key : Bytes) : Manager :=
  { m with lineage := fun l => if l = line then m.lineage l ++ [key] else m.lineage l }

/-- The longest common prefix with a reusable entry, over a list of keys. -/
def longestOf (identity : Identity) (tokens : List Int) (keys : List Bytes) : Nat → Nat :=
  fun best => keys.foldl
    (fun best key =>
      match m.get key with
      | none => best
      | some e =>
        if compatibleIdentity e.identity identity = false then best
        else if identity.requiresSSM = true ∧ e.hasSSMSnapshot = false then best
        else if best < commonPrefix e.tokens tokens then commonPrefix e.tokens tokens
        else best)
    best

/-- The longest prefix of a lineage that can be reused. -/
def longestVerifiedPrefixLocked (m : Manager) (identity : Identity) (tokens : List Int) : Nat :=
  let lineages :=
    if identity.hasSession then [sessionLineageKey sha identity, lineageKey sha identity]
    else [lineageKey sha identity]
  lineages.foldl (fun best line => m.longestOf identity tokens (m.lineage line) best) 0

/-- The reason to turn a lookup away, and whether the cache is on for it. -/
def turnAway (lower : Char → Char) (m : Manager) (identity : Identity) :
    Option (InvalidationReason × Bool) :=
  if m.config.mode = .off then some (.disabledByEnv, false)
  else if identity.supported = false ∧ m.config.mode = .auto then
    some (.unsupportedModelFamily, false)
  else if isUnsafeGraphFamily lower identity.graphFamily identity.slidingWindow then
    some (.unsupportedGraphFamily, false)
  else if identity.requiresSSM = true ∧ identity.hasSSMSnapshot = false then
    some (.ssmSnapshotMissing, true)
  else none

/-- A lookup, with the clock readings of the expiry and of the access. -/
def lookup (lower : Char → Char) (m : Manager) (identity : Identity)
    (tokens : List Int) (evictAt accessAt : Int) : Decision × Manager :=
  match turnAway lower m identity with
  | some (reason, enabled) => ({ enabled := enabled, invalidationReason := some reason }, m)
  | none =>
    let key := cacheKey sha identity tokens
    let m := m.evictExpiredLocked evictAt
    let exact := (m.get key).filter fun e => equalTokens e.tokens tokens
    if exact.isSome then
      ({ enabled := true, hit := true, cacheKey := key, reusedTokens := tokens.length
         prefillTokensSkipped := tokens.length },
        { m with
          entries := m.entries.map fun e =>
            if e.key = key then { e with lastAccess := accessAt } else e })
    else
      let reused := m.longestVerifiedPrefixLocked sha identity tokens
      if 0 < reused then
        ({ enabled := true, hit := true, cacheKey := key, reusedTokens := reused
           prefillTokensSkipped := reused }, m)
      else ({ enabled := true, cacheKey := key }, m)

/-- The entry that is stored, with the clock readings of its expiry and its access. -/
def newEntry (m : Manager) (identity : Identity) (tokens : List Int)
    (storedAt accessAt : Int) : Entry where
  key := cacheKey sha identity tokens
  lineage := lineageKey sha identity
  identity := identity
  tokens := tokens
  bytes := tokens.length * 4
  expiresAt := storedAt + m.config.ttl
  lastAccess := accessAt
  hasSSMSnapshot := identity.hasSSMSnapshot

/-- The entry takes the place of the one under its key. -/
def put (e : Entry) : Manager :=
  { m with
    entries := e :: Table.without Entry.key e.key m.entries
    bytes := m.bytes - ((m.get e.key).map Entry.bytes).getD 0 + e.bytes }

/-- The entry is named in the lists of its identity and of its session. -/
def index (m : Manager) (identity : Identity) (key : Bytes) : Manager :=
  let m := m.addLineage (lineageKey sha identity) key
  if identity.hasSession then m.addLineage (sessionLineageKey sha identity) key else m

/-- `Store` -/
def store (m : Manager) (identity : Identity) (tokens : List Int)
    (storedAt accessAt : Int) (order : MapOrder) : Manager :=
  if tokens = [] then m
  else
    let e := newEntry sha m identity tokens storedAt accessAt
    ((m.put e).index sha identity e.key).evictPressureLocked order

/-- `LookupAndStore` -/
def lookupAndStore (lower : Char → Char) (m : Manager) (identity : Identity)
    (tokens : List Int) (evictAt lookupAt storedAt accessAt : Int) (order : MapOrder) :
    Decision × Manager :=
  let r := m.lookup sha lower identity tokens evictAt lookupAt
  if r.1.enabled = true ∧ r.1.invalidationReason = none then
    (r.1, r.2.store sha identity tokens storedAt accessAt order)
  else r

/-- `Clear` -/
def clear : Manager := { m with entries := [], lineage := fun _ => [], bytes := 0 }

/-! ### Runs -/

/-- A call, with the readings of the clock and the orders of the map that it meets. -/
inductive Call where
  | lookup (identity : Identity) (tokens : List Int) (evictAt accessAt : Int)
  | store (identity : Identity) (tokens : List Int) (storedAt accessAt : Int) (order : MapOrder)
  | lookupAndStore (identity : Identity) (tokens : List Int)
      (evictAt lookupAt storedAt accessAt : Int) (order : MapOrder)
  | clear

/-- What one call does to the manager. -/
def call (lower : Char → Char) (m : Manager) : Call → Manager
  | .lookup identity tokens evictAt accessAt =>
    (m.lookup sha lower identity tokens evictAt accessAt).2
  | .store identity tokens storedAt accessAt order =>
    m.store sha identity tokens storedAt accessAt order
  | .lookupAndStore identity tokens evictAt lookupAt storedAt accessAt order =>
    (m.lookupAndStore sha lower identity tokens evictAt lookupAt storedAt accessAt order).2
  | .clear => m.clear

end Manager

end DenseCore.Server.PromptCache
