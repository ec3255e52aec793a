import LightWalletd.Model.PeerAddress
import LightWalletd.Model.ResourceCaps
import Mathlib.Data.List.Infix

/-!
# Configuration

An operator's configuration is normalized and checked once, before anything starts. A text is the
list of its characters, and so is a path; the home directory is an argument. The settings that are
neither normalized nor checked are left out.
-/

set_option autoImplicit false

namespace LightWalletd

/-- SOURCE: config.rs:25-118 -/
structure Config where
  darkfidEndpoint : List Char
  grpcListen : List Char
  cachePath : List Char
  pollInterval : ℕ
  chainName : List Char
  network : List Char
  maxStreamsPerConn : ℕ
  maxTxBytes : ℕ
  tlsCertPath : Option (List Char)
  tlsKeyPath : Option (List Char)
  rateLimitGcThreshold : ℕ
  maxSendPeerEntries : ℕ
  maxDetectionKeyBytes : ℕ
  uploadBudgetMib : ℕ
  maxUploadsPerIp : ℕ

namespace Config

/-! ## Defaults -/

/-- SOURCE: config.rs:139-141 -/
def defaultCachePath : List Char := "~/.local/share/darkfi/lightwalletd_cache".toList

/-- SOURCE: config.rs:147-149 -/
def defaultChainName : List Char := "darkfi-testnet".toList

/-- SOURCE: config.rs:120-207, config.rs:246-273 -/
def default : Config where
  darkfidEndpoint := "tcp://127.0.0.1:18345".toList
  grpcListen := "127.0.0.1:9067".toList
  cachePath := defaultCachePath
  pollInterval := 10
  chainName := defaultChainName
  network := "testnet".toList
  maxStreamsPerConn := 256
  maxTxBytes := 2000000
  tlsCertPath := none
  tlsKeyPath := none
  rateLimitGcThreshold := 4096
  maxSendPeerEntries := 100000
  maxDetectionKeyBytes := 160 * 1024 * 1024
  uploadBudgetMib := 512
  maxUploadsPerIp := 2

/-! ## Texts and paths -/

/-- `str::to_ascii_lowercase`. -/
def toAsciiLowercase (text : List Char) : List Char := text.map Char.toLower

/-- `str::contains`. -/
def contains (text needle : List Char) : Bool := decide (needle <:+: text)

/-- `PathBuf::join`. -/
def join (path file : List Char) : List Char :=
  if file.head? = some '/' then file
  else if path.getLast?.any (· ≠ '/') then path ++ '/' :: file
  else path ++ file

/-- `Path::file_name`. -/
def fileName (path : List Char) : Option (List Char) :=
  match ((path.splitOn '/').filter fun part => part ≠ [] ∧ part ≠ ['.']).getLast? with
  | some part => if part = ['.', '.'] then none else some part
  | none => none

/-- SOURCE: config.rs:209-220 -/
def expandTilde (home : Option (List Char)) (path : List Char) : List Char :=
  if path = ['~'] then home.getD ['.']
  else match path, home with
    | '~' :: '/' :: rest, some home => join home rest
    | _, _ => path

/-! ## Checks -/

/-- SOURCE: config.rs:228-237 -/
def networkByte (network : List Char) : Except String UInt8 :=
  let network := toAsciiLowercase (trim network)
  if network = "mainnet".toList then .ok 0x00
  else if network = "testnet".toList ∨ network = "localnet".toList then .ok 0x01
  else .error ("invalid network `" ++ String.ofList network ++ "` (expected mainnet or testnet)")

/-- SOURCE: config.rs:239-244 -/
def expectedChainName (network : List Char) : List Char :=
  if network = "mainnet".toList then "darkfi-mainnet".toList else "darkfi-testnet".toList

/-- SOURCE: config.rs:288-299 -/
def normalizeNetwork (network : List Char) : Except String (List Char) :=
  let net := toAsciiLowercase (trim network)
  if net = "mainnet".toList ∨ net = "testnet".toList then .ok net
  else if net = "localnet".toList then .ok "testnet".toList
  else .error ("network must be \"mainnet\" or \"testnet\", got `" ++ String.ofList net ++ "`")

/-- SOURCE: config.rs:302-328 -/
def normalizeChainName (network chainName : List Char) : Except String (List Char) :=
  let chain := toAsciiLowercase (trim chainName)
  let expected := expectedChainName network
  if chain = [] ∨ chain = defaultChainName then .ok expected
  else
    let chainName := trim chainName
    let lower := toAsciiLowercase chainName
    let ok :=
      if network = "mainnet".toList then
        contains lower "mainnet".toList && !contains lower "testnet".toList &&
          !contains lower "localnet".toList
      else if network = "testnet".toList then
        (contains lower "testnet".toList || contains lower "localnet".toList) &&
          !contains lower "mainnet".toList
      else false
    if !ok then
      .error ("chain_name `" ++ String.ofList chainName ++ "` is inconsistent with network `" ++
        String.ofList network ++ "` (expected something like `" ++ String.ofList expected ++ "`)")
    else .ok chainName

/-- A check of `finalize`. -/
def ensure (holds : Bool) (message : String) : Except String Unit :=
  if holds then .ok () else .error message

/-- A setting that must not be 0. -/
def ensurePositive (value : ℕ) (name : String) : Except String Unit :=
  ensure (value ≠ 0) (name ++ " must be >= 1")

/-- SOURCE: config.rs:330-359 -/
def check (c : Config) : Except String Unit := do
  ensurePositive c.pollInterval "poll_interval"
  ensure (trim c.darkfidEndpoint ≠ []) "darkfid_endpoint must not be empty"
  ensure (trim c.grpcListen ≠ []) "grpc_listen must not be empty"
  ensurePositive c.maxTxBytes "max_tx_bytes"
  ensurePositive c.maxStreamsPerConn "max_streams_per_conn"
  ensurePositive c.rateLimitGcThreshold "rate_limit_gc_threshold"
  ensurePositive c.maxSendPeerEntries "max_send_peer_entries"
  ensurePositive c.maxDetectionKeyBytes "max_detection_key_bytes"
  ensurePositive c.uploadBudgetMib "upload_budget_mib"
  ensurePositive c.maxUploadsPerIp "max_uploads_per_ip"

/-- The default cache is kept by network.
SOURCE: config.rs:361-369 -/
def scopeCachePath (home : Option (List Char)) (network cachePath : List Char) : List Char :=
  let cache := expandTilde home cachePath
  if trim cachePath = defaultCachePath ∨ fileName cache = some "lightwalletd_cache".toList then
    join cache network
  else cache

/-- SOURCE: config.rs:286-379 -/
def finalize (home : Option (List Char)) (c : Config) : Except String Config := do
  let network ← normalizeNetwork c.network
  let _ ← networkByte network
  let chainName ← normalizeChainName network c.chainName
  check c
  return { c with
    network := network
    chainName := chainName
    cachePath := scopeCachePath home network c.cachePath
    tlsCertPath := c.tlsCertPath.map (expandTilde home)
    tlsKeyPath := c.tlsKeyPath.map (expandTilde home) }

/-! ## Application -/

/-- `Semaphore::MAX_PERMITS`; a semaphore with more permits panics. -/
def maxPermits : ℕ := u64Max / 8

/-- The caps of a finalized configuration, if its upload budget fits into a semaphore.
SOURCE: main.rs:220-226 -/
def resourceCaps (c : Config) : Option ResourceCaps :=
  if maxPermits < uploadBudgetPermits c.uploadBudgetMib then none
  else some (applyResourceCaps c.maxDetectionKeyBytes c.uploadBudgetMib c.maxUploadsPerIp)

end Config

end LightWalletd
