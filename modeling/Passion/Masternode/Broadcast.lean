import Passion.Masternode.Queue
import Passion.Primitives.Serialize

/-!
# Masternode broadcasts

A broadcast announces a masternode: the output with its collateral, its address and its keys,
signed with the collateral key. `ProcessMNBroadcast` of `masternodeman.cpp` drops a broadcast whose
hash it has seen, and otherwise checks it (`masternode.cpp`).

**The output in a broadcast.** `IsInputAssociatedWithPubkey` looks for the collateral among all
outputs of the transaction, not at the one that the broadcast names (`inputAssociated_iff`). And
neither the hash that is signed nor the hash that is remembered reads the output
(`broadcast_hashes_ne_iff`).

**The text that is signed.** The signature is of a text: the hexadecimal hash of the fields, or for
message versions other than `MESS_VER_HASH` the fields themselves, with nothing between port, time,
keys and protocol version.
-/

namespace Passion

open Lib List
open CScript (writeLE readLE)

/-- A public key: the bytes from `begin()` to `end()`, at most `PUBLIC_KEY_SIZE`. -/
structure CPubKey where
  bytes : List UInt8
  size_le : bytes.length ≤ 65
  deriving DecidableEq, Repr

/-- `CPubKey::Serialize`. The compact size of a key is one byte. -/
def CPubKey.serialize (key : CPubKey) : List UInt8 := UInt8.ofNat key.bytes.length :: key.bytes

structure CService where
  ip : List UInt8
  ip_length : ip.length = 16
  port : BitVec 16
  deriving DecidableEq, Repr

/-- The port is in network order. -/
def CService.serialize (addr : CService) : List UInt8 :=
  addr.ip ++ (writeLE 2 addr.port.toNat).reverse

structure CMasternodeBroadcast where
  /-- `vin.prevout`. -/
  vin : COutPoint
  addr : CService
  pubKeyCollateralAddress : CPubKey
  pubKeyMasternode : CPubKey
  sigTime : BitVec 64
  protocolVersion : BitVec 32
  nMessVersion : BitVec 32
  deriving DecidableEq, Repr

open CMasternodeBroadcast

/-! ## Texts -/

/-- `std::to_string`. -/
def decimal (n : Int) : List UInt8 :=
  let digits := (Nat.toDigits 10 n.natAbs).map fun c => UInt8.ofNat c.toNat
  if n < 0 then 0x2d :: digits else digits

def hexDigit (d : Nat) : UInt8 := UInt8.ofNat (if d < 10 then 48 + d else 87 + d)

/-- `GetHex` of a number with so many digits. -/
def getHex : Nat → Nat → List UInt8
  | 0, _ => []
  | digits + 1, n => getHex digits (n / 16) ++ [hexDigit (n % 16)]

def writeCompactSize (nSize : Nat) : List UInt8 :=
  if nSize < 253 then [UInt8.ofNat nSize]
  else if nSize ≤ 0xffff then 253 :: writeLE 2 nSize
  else if nSize ≤ 0xffffffff then 254 :: writeLE 4 nSize
  else 255 :: writeLE 8 nSize

def serializeString (s : List UInt8) : List UInt8 := writeCompactSize s.length ++ s

/-- `strMessageMagic`: "DarkNet Signed Message:" and a line feed. -/
def strMessageMagic : List UInt8 :=
  [0x44, 0x61, 0x72, 0x6b, 0x4e, 0x65, 0x74, 0x20, 0x53, 0x69, 0x67, 0x6e, 0x65, 0x64, 0x20, 0x4d,
    0x65, 0x73, 0x73, 0x61, 0x67, 0x65, 0x3a, 0x0a]

/-- What `GetMessageHash` writes. -/
def messageBytes (strMessage : List UInt8) : List UInt8 :=
  serializeString strMessageMagic ++ serializeString strMessage

def messVerHash : BitVec 32 := 1

structure BroadcastEnv where
  /-- The hash of `CHashWriter`. -/
  hash256 : List UInt8 → UInt256
  /-- `ToStringIP`, in brackets unless it is an IPv4 or a Tor address. -/
  host : CService → List UInt8
  /-- `GetID`. -/
  getID : CPubKey → BitVec 160
  /-- `chainActive.Height()`. -/
  chainHeight : Int
  getTransaction : UInt256 → Option CTransaction
  /-- `GetScriptForDestination(key.GetID())`. -/
  payTo : CPubKey → CScript
  /-- `CheckAndUpdate`, with `nDoS`. -/
  checkAndUpdate : CMasternodeBroadcast → Bool × Int
  /-- `CheckInputsAndAdd`, with `nDoS`. -/
  checkInputsAndAdd : CMasternodeBroadcast → Bool × Int
  /-- `CheckInputsAndAdd` forgets the broadcast, as its output has too few confirmations. -/
  forgets : CMasternodeBroadcast → Bool

namespace CMasternodeBroadcast

variable (env : BroadcastEnv) (mnb : CMasternodeBroadcast)

/-- What `GetSignatureHash` writes. -/
def signedBytes : List UInt8 :=
  writeLE 4 mnb.nMessVersion.toNat ++ (mnb.addr.serialize ++
    (writeLE 8 mnb.sigTime.toNat ++ (mnb.pubKeyCollateralAddress.serialize ++
      (mnb.pubKeyMasternode.serialize ++ writeLE 4 mnb.protocolVersion.toNat))))

def getSignatureHash : UInt256 := env.hash256 mnb.signedBytes

/-- `GetStrMessage` after the colon: the port, the time, the key ids and the protocol version. -/
def runTogether : List UInt8 :=
  decimal mnb.addr.port.toNat ++ (decimal mnb.sigTime.toInt ++
    (getHex 40 (env.getID mnb.pubKeyCollateralAddress).toNat ++
      (getHex 40 (env.getID mnb.pubKeyMasternode).toNat ++ decimal mnb.protocolVersion.toInt)))

def getStrMessage : List UInt8 := env.host mnb.addr ++ 0x3a :: mnb.runTogether env

/-- `strMessage` of `CheckSignature`. -/
def signedMessage : List UInt8 :=
  if mnb.nMessVersion = messVerHash then getHex 64 (mnb.getSignatureHash env).toNat
  else mnb.getStrMessage env

/-- The hash whose signature `CheckSignature` verifies. -/
def signedHash : UInt256 := env.hash256 (messageBytes (mnb.signedMessage env))

/-- What `GetHash` writes. -/
def seenBytes : List UInt8 :=
  writeLE 8 mnb.sigTime.toNat ++ mnb.pubKeyCollateralAddress.serialize

def getHash : UInt256 := env.hash256 mnb.seenBytes

def isInputAssociatedWithPubkey : Bool :=
  match env.getTransaction mnb.vin.hash with
  | none => false
  | some txVin => txVin.vout.any fun out =>
    decide (masternodeLevel out.nValue env.chainHeight ≠ 0) &&
      decide (out.scriptPubKey = env.payTo mnb.pubKeyCollateralAddress)

end CMasternodeBroadcast

/-- `ProcessMNBroadcast`: the misbehaviour of the peer, and `mapSeenMasternodeBroadcast`. -/
def processMNBroadcast (env : BroadcastEnv) (seen : Map UInt256 CMasternodeBroadcast)
    (mnb : CMasternodeBroadcast) : Int × Map UInt256 CMasternodeBroadcast :=
  let mnbHash := mnb.getHash env
  if (seen.lookup mnbHash).isSome then (0, seen)
  else
    match env.checkAndUpdate mnb with
    | (false, nDoS) => (nDoS, seen)
    | (true, _) =>
      if !mnb.isInputAssociatedWithPubkey env then (33, seen)
      else
        let added := seen.insert mnbHash mnb
        match env.checkInputsAndAdd mnb with
        | (true, _) => (0, added)
        | (false, nDoS) => (nDoS, if env.forgets mnb then added.erase mnbHash else added)

/-! ## The collateral -/

def collateralValues : List CAmount := [1000 * COIN, 5000 * COIN, 10000 * COIN, 25000 * COIN]

theorem masternodeLevel_ne_zero_iff {v : CAmount} {blockHeight : Int} :
    masternodeLevel v blockHeight ≠ 0 ↔ 0 ≤ blockHeight ∧ v ∈ collateralValues := by
  simp only [masternodeLevel, levelUnspecified, collateralValues]
  split_ifs <;> simp_all

def BroadcastEnv.IsCollateral (env : BroadcastEnv) (key : CPubKey) (out : CTxOut) : Prop :=
  out.nValue ∈ collateralValues ∧ out.scriptPubKey = env.payTo key

def BroadcastEnv.outputs (env : BroadcastEnv) (hash : UInt256) : List CTxOut :=
  (env.getTransaction hash).elim [] (·.vout)

/-- The broadcast passes only if the output that it names holds its collateral. -/
def BroadcastEnv.Backed (env : BroadcastEnv) (mnb : CMasternodeBroadcast) : Prop :=
  mnb.isInputAssociatedWithPubkey env = true →
    ∃ out, (env.outputs mnb.vin.hash)[mnb.vin.n]? = some out ∧
      env.IsCollateral mnb.pubKeyCollateralAddress out

def CMasternodeBroadcast.withOutput (mnb : CMasternodeBroadcast) (n : Nat) :
    CMasternodeBroadcast :=
  { mnb with vin := ⟨mnb.vin.hash, n⟩ }

section

variable {env : BroadcastEnv} {mnb : CMasternodeBroadcast}

theorem isInputAssociated_eq_true : mnb.isInputAssociatedWithPubkey env = true ↔
    0 ≤ env.chainHeight ∧ ∃ out ∈ env.outputs mnb.vin.hash,
      env.IsCollateral mnb.pubKeyCollateralAddress out := by
  unfold isInputAssociatedWithPubkey BroadcastEnv.outputs
  cases env.getTransaction mnb.vin.hash with
  | none => simp
  | some tx =>
    simp only [any_eq_true, Bool.and_eq_true, decide_eq_true_eq, masternodeLevel_ne_zero_iff,
      BroadcastEnv.IsCollateral, Option.elim_some]
    grind

/-- Which output is named has no part in the test. -/
theorem backed_withOutput (n : Nat) : env.Backed (mnb.withOutput n) ↔ env.chainHeight < 0 ∨
    (∀ out ∈ env.outputs mnb.vin.hash, ¬env.IsCollateral mnb.pubKeyCollateralAddress out) ∨
    ∃ out, (env.outputs mnb.vin.hash)[n]? = some out ∧
      env.IsCollateral mnb.pubKeyCollateralAddress out := by
  rw [BroadcastEnv.Backed, isInputAssociated_eq_true, imp_iff_not_or, not_and_or, not_le,
    or_assoc]
  simp only [withOutput, not_exists, not_and]

end

/-- **Which transactions pass only with an output that holds the collateral**, for a key. With every
output of the transaction: iff all of them hold a collateral for the key, or none does. With output
numbers that it does not have too: iff none does. -/
theorem inputAssociated_iff (env : BroadcastEnv) (mnb : CMasternodeBroadcast) :
    ((∀ n < (env.outputs mnb.vin.hash).length, env.Backed (mnb.withOutput n)) ↔
      env.chainHeight < 0 ∨
        (∀ out ∈ env.outputs mnb.vin.hash, env.IsCollateral mnb.pubKeyCollateralAddress out) ∨
        ∀ out ∈ env.outputs mnb.vin.hash, ¬env.IsCollateral mnb.pubKeyCollateralAddress out) ∧
    ((∀ n, env.Backed (mnb.withOutput n)) ↔
      env.chainHeight < 0 ∨
        ∀ out ∈ env.outputs mnb.vin.hash, ¬env.IsCollateral mnb.pubKeyCollateralAddress out) := by
  simp only [backed_withOutput]
  refine ⟨⟨fun hall => ?_, fun h n hn => ?_⟩, ⟨fun hall => ?_, fun h _ => h.imp_right .inl⟩⟩
  · -- an output that holds none is named by its own number
    by_contra! hmixed
    obtain ⟨hheight, ⟨out, hout, hnot⟩, hsome⟩ := hmixed
    obtain ⟨n, hn, rfl⟩ := mem_iff_getElem.mp hout
    rcases hall n hn with h | h | ⟨out, hget, hcollateral⟩
    · omega
    · obtain ⟨x, hx, hcollateral⟩ := hsome
      exact h x hx hcollateral
    · rw [getElem?_eq_getElem hn] at hget
      cases hget
      exact hnot hcollateral
  · refine h.imp_right fun h => h.symm.imp_right fun hcollateral => ?_
    exact ⟨_, getElem?_eq_getElem hn, hcollateral _ (getElem_mem hn)⟩
  · have hpast := hall (env.outputs mnb.vin.hash).length
    rw [getElem?_eq_none le_rfl] at hpast
    simpa using hpast

/-! ## The two hashes -/

theorem CPubKey.serialize_append_inj {key key' : CPubKey} {rest rest' : List UInt8}
    (h : key.serialize ++ rest = key'.serialize ++ rest') : key = key' := by
  obtain ⟨hsize, htail⟩ := cons.inj h
  have hlength : key.bytes.length = key'.bytes.length := by
    have hle := key.size_le
    have hle' := key'.size_le
    have hnat := congrArg UInt8.toNat hsize
    simp only [UInt8.toNat_ofNat'] at hnat
    omega
  have hbytes := (append_inj htail hlength).1
  cases key
  cases key'
  simpa using hbytes

theorem sigTime_inj {a b : BitVec 64} (h : writeLE 8 a.toNat = writeLE 8 b.toNat) : a = b := by
  have hread := congrArg readLE h
  rwa [readLE_writeLE a.isLt, readLE_writeLE b.isLt, BitVec.toNat_inj] at hread

/-- What follows the time in either of the two preimages starts with the collateral key. -/
theorem time_key_inj {a b : CMasternodeBroadcast} {rest rest' : List UInt8}
    (h : writeLE 8 a.sigTime.toNat ++ (a.pubKeyCollateralAddress.serialize ++ rest) =
      writeLE 8 b.sigTime.toNat ++ (b.pubKeyCollateralAddress.serialize ++ rest')) :
    a.sigTime = b.sigTime ∧ a.pubKeyCollateralAddress = b.pubKeyCollateralAddress := by
  obtain ⟨htime, hkey⟩ := append_inj h (by simp)
  exact ⟨sigTime_inj htime, CPubKey.serialize_append_inj hkey⟩

theorem signedBytes_inj {a b : CMasternodeBroadcast} (h : a.signedBytes = b.signedBytes) :
    a.sigTime = b.sigTime ∧ a.pubKeyCollateralAddress = b.pubKeyCollateralAddress := by
  obtain ⟨-, hrest⟩ := append_inj h (by simp)
  have hlength : a.addr.serialize.length = b.addr.serialize.length := by
    simp [CService.serialize, a.addr.ip_length, b.addr.ip_length]
  exact time_key_inj (append_inj hrest hlength).2

def BroadcastEnv.CollisionFree (env : BroadcastEnv) (x y : List UInt8) : Prop :=
  env.hash256 x = env.hash256 y → x = y

/-! ### The signed text -/

theorem serializeString_inj {s s' : List UInt8} (h : serializeString s = serializeString s') :
    s = s' := by
  have hsize : ∀ s, (serializeString s).length = getSizeOfCompactSize s.length + s.length := by
    intro s
    simp only [serializeString, writeCompactSize, getSizeOfCompactSize, length_append]
    split_ifs <;> simp
  -- a longer string has a longer serialization
  have hlength := congrArg length h
  rw [hsize, hsize] at hlength
  have hsame : s.length = s'.length := by
    unfold getSizeOfCompactSize at hlength
    split_ifs at hlength <;> omega
  exact (append_inj' h hsame).2

theorem messageBytes_inj {s s' : List UInt8} (h : messageBytes s = messageBytes s') : s = s' :=
  serializeString_inj (append_cancel_left h)

theorem getHex_inj {digits n m : Nat} (hn : n < 16 ^ digits) (hm : m < 16 ^ digits)
    (h : getHex digits n = getHex digits m) : n = m := by
  induction digits generalizing n m with
  | zero => omega
  | succ digits ih =>
    obtain ⟨hinit, hlast⟩ := append_inj' h rfl
    have hdiv := ih (Nat.div_lt_of_lt_mul (by rwa [← Nat.pow_succ']))
      (Nat.div_lt_of_lt_mul (by rwa [← Nat.pow_succ'])) hinit
    have hdigit : n % 16 = m % 16 := by
      have hbyte := congrArg UInt8.toNat (singleton_inj.mp hlast)
      simp only [hexDigit, UInt8.toNat_ofNat'] at hbyte
      split_ifs at hbyte <;> omega
    omega

theorem colon_not_mem_getHex (digits n : Nat) : 0x3a ∉ getHex digits n := by
  induction digits generalizing n with
  | zero => exact not_mem_nil
  | succ digits ih =>
    rw [getHex, mem_append, mem_singleton, not_or]
    refine ⟨ih _, fun h => ?_⟩
    have hbyte := congrArg UInt8.toNat h
    simp only [hexDigit, UInt8.toNat_ofNat'] at hbyte
    split_ifs at hbyte <;> simp at hbyte <;> omega

/-- The text has a colon between host and port. -/
theorem getHex_ne_getStrMessage (env : BroadcastEnv) (digits n : Nat)
    (mnb : CMasternodeBroadcast) : getHex digits n ≠ mnb.getStrMessage env := by
  intro heq
  refine colon_not_mem_getHex digits n ?_
  rw [heq]
  simp [getStrMessage]

theorem colon_not_mem_decimal (n : Int) : 0x3a ∉ decimal n := by
  have hdigits : 0x3a ∉ (Nat.toDigits 10 n.natAbs).map fun c => UInt8.ofNat c.toNat := by
    intro hmem
    obtain ⟨c, hc, hbyte⟩ := mem_map.mp hmem
    have hdigit := Nat.isDigit_of_mem_toDigits (by decide) le_rfl hc
    rw [Char.isDigit, Bool.and_eq_true, decide_eq_true_eq, decide_eq_true_eq] at hdigit
    have hnat := congrArg UInt8.toNat hbyte
    have hlow : 48 ≤ c.toNat := hdigit.1
    have hhigh : c.toNat ≤ 57 := hdigit.2
    rw [UInt8.toNat_ofNat', Nat.mod_eq_of_lt (by omega)] at hnat
    simp at hnat
    omega
  unfold decimal
  dsimp only
  split_ifs
  · simpa using hdigits
  · exact hdigits

theorem colon_not_mem_runTogether (env : BroadcastEnv) (mnb : CMasternodeBroadcast) :
    0x3a ∉ mnb.runTogether env := by
  simp [runTogether, colon_not_mem_decimal, colon_not_mem_getHex]

theorem split_at_colon {s s' rest rest' : List UInt8} (hrest : 0x3a ∉ rest) (hrest' : 0x3a ∉ rest')
    (h : s ++ 0x3a :: rest = s' ++ 0x3a :: rest') : s = s' ∧ rest = rest' := by
  rcases append_eq_append_iff.mp h with ⟨_ | ⟨c, l⟩, rfl, hl⟩ | ⟨_ | ⟨c, l⟩, rfl, hl⟩
  · simpa using hl
  · exact absurd (by rw [(cons.inj hl).2]; simp) hrest
  · simpa [eq_comm] using hl
  · exact absurd (by rw [(cons.inj hl).2]; simp) hrest'

section

variable {env : BroadcastEnv} {a b : CMasternodeBroadcast}

/-- The texts of two broadcasts that differ in the time or in the collateral key. -/
theorem signedMessage_eq_iff (hsigned : env.CollisionFree a.signedBytes b.signedBytes)
    (hdiff : a.sigTime ≠ b.sigTime ∨ a.pubKeyCollateralAddress ≠ b.pubKeyCollateralAddress) :
    a.signedMessage env = b.signedMessage env ↔
      a.nMessVersion ≠ messVerHash ∧ b.nMessVersion ≠ messVerHash ∧
        env.host a.addr = env.host b.addr ∧ a.runTogether env = b.runTogether env := by
  unfold signedMessage
  by_cases ha : a.nMessVersion = messVerHash <;> by_cases hb : b.nMessVersion = messVerHash
  · rw [if_pos ha, if_pos hb]
    refine iff_of_false (fun heq => ?_) (fun h => h.1 ha)
    have hhash := BitVec.eq_of_toNat_eq
      (getHex_inj (a.getSignatureHash env).isLt (b.getSignatureHash env).isLt heq)
    obtain ⟨htime, hkey⟩ := signedBytes_inj (hsigned hhash)
    exact hdiff.elim (absurd htime) (absurd hkey)
  · rw [if_pos ha, if_neg hb]
    exact iff_of_false (getHex_ne_getStrMessage env 64 _ b) (fun h => h.1 ha)
  · rw [if_neg ha, if_pos hb]
    exact iff_of_false (getHex_ne_getStrMessage env 64 _ a).symm (fun h => h.2.1 hb)
  · rw [if_neg ha, if_neg hb, getStrMessage, getStrMessage]
    constructor
    · intro heq
      exact ⟨ha, hb, split_at_colon (colon_not_mem_runTogether env a)
        (colon_not_mem_runTogether env b) heq⟩
    · rintro ⟨-, -, hhost, hrun⟩
      rw [hhost, hrun]

end

/-- **What the two hashes of broadcasts tell apart**: the time and the collateral key, but not where
both sign a text, for one host, and the rest of it runs together to the same. -/
theorem broadcast_hashes_ne_iff (env : BroadcastEnv) (a b : CMasternodeBroadcast)
    (hsigned : env.CollisionFree a.signedBytes b.signedBytes)
    (hmessage : env.CollisionFree (messageBytes (a.signedMessage env))
      (messageBytes (b.signedMessage env)))
    (hseen : env.CollisionFree a.seenBytes b.seenBytes) :
    a.signedHash env ≠ b.signedHash env ∧ a.getHash env ≠ b.getHash env ↔
      (a.sigTime ≠ b.sigTime ∨ a.pubKeyCollateralAddress ≠ b.pubKeyCollateralAddress) ∧
        ¬(a.nMessVersion ≠ messVerHash ∧ b.nMessVersion ≠ messVerHash ∧
          env.host a.addr = env.host b.addr ∧ a.runTogether env = b.runTogether env) := by
  have hseen_iff : a.getHash env ≠ b.getHash env ↔
      a.sigTime ≠ b.sigTime ∨ a.pubKeyCollateralAddress ≠ b.pubKeyCollateralAddress := by
    rw [← not_and_or, not_iff_not]
    constructor
    · intro hhash
      have hpreimage := hseen hhash
      unfold seenBytes at hpreimage
      rw [← append_nil a.pubKeyCollateralAddress.serialize,
        ← append_nil b.pubKeyCollateralAddress.serialize] at hpreimage
      exact time_key_inj hpreimage
    · rintro ⟨htime, hkey⟩
      simp only [getHash, seenBytes, htime, hkey]
  rw [and_comm, hseen_iff]
  refine and_congr_right fun hdiff => ?_
  rw [← signedMessage_eq_iff hsigned hdiff, not_iff_not]
  constructor
  · intro hhash
    exact messageBytes_inj (hmessage hhash)
  · intro heq
    rw [signedHash, signedHash, heq]

/-! ### Broadcasts of one owner -/

namespace BroadcastSample

def key : CPubKey := ⟨2 :: replicate 32 7, by decide⟩

def payTo : CScript := [0x76, 0xa9, 20] ++ replicate 20 7 ++ [0x88, 0xac]

/-- A broadcast for an output of the first transaction, with a port and a time. -/
def broadcast (n : Nat) (port : BitVec 16) (sigTime : BitVec 64) (nMessVersion : BitVec 32) :
    CMasternodeBroadcast where
  vin := ⟨1, n⟩
  addr := ⟨replicate 10 0 ++ [255, 255, 1, 2, 3, 4], by decide, port⟩
  pubKeyCollateralAddress := key
  pubKeyMasternode := key
  sigTime := sigTime
  protocolVersion := 70920
  nMessVersion := nMessVersion

/-- The second output of the transaction holds a collateral, the first does not. A polynomial of the
bytes stands for the hash. -/
def env : BroadcastEnv where
  hash256 bytes := BitVec.ofNat 256 (bytes.foldl (fun h byte => h * 257 + byte.toNat + 1) 0)
  -- "1.2.3.4"
  host _ := [0x31, 0x2e, 0x32, 0x2e, 0x33, 0x2e, 0x34]
  getID _ := BitVec.ofNat 160 7
  chainHeight := 100
  getTransaction _ := some (.paying [⟨5, payTo⟩, ⟨1000 * COIN, payTo⟩])
  payTo _ := payTo
  checkAndUpdate _ := (true, 0)
  checkInputsAndAdd _ := (true, 0)
  forgets _ := false

def first : CMasternodeBroadcast := broadcast 0 5147 1700000000 messVerHash

def second : CMasternodeBroadcast := broadcast 1 5147 1700000000 messVerHash

def later : CMasternodeBroadcast := broadcast 1 5147 1700000001 messVerHash

/-- A broadcast for the first output passes. -/
theorem unbacked_associated :
    first.isInputAssociatedWithPubkey env = true ∧ ¬env.Backed first := by
  have hpass : first.isInputAssociatedWithPubkey env = true := by decide
  refine ⟨hpass, fun hbacked => ?_⟩
  obtain ⟨out, hout, hvalue, -⟩ := hbacked hpass
  cases hout
  exact absurd hvalue (by decide)

/-- Two broadcasts with different times. -/
theorem hashes_differ :
    first.signedHash env ≠ later.signedHash env ∧ first.getHash env ≠ later.getHash env := by
  refine (broadcast_hashes_ne_iff env _ _ ?_ ?_ ?_).mpr ⟨.inl (by decide), fun h => h.1 rfl⟩ <;>
    exact fun h => absurd h (by decide +kernel)

/-- Two broadcasts of one owner with one time, for different outputs. A signature of one is one of
the other; and when one was seen, the other is dropped. -/
theorem hashes_agree : first.vin ≠ second.vin ∧
    first.signedHash env = second.signedHash env ∧ first.getHash env = second.getHash env ∧
    (processMNBroadcast env (processMNBroadcast env ∅ first).2 second).2.lookup
      (second.getHash env) = some first := by
  decide +kernel

/-- A signature of one text for two ports and times. -/
example : (broadcast 0 5147 1700000000 0).signedHash env =
    (broadcast 1 51471 700000000 0).signedHash env := by
  decide +kernel

end BroadcastSample

end Passion
