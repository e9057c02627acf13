import Piupiu.ReplicaManager
import Piupiu.Lib.IStream

/-!
# The argument with the peers

`launch.py` joins the peers of a server into one text and the server takes it
apart again. An entry is read through its first three fields, whether they are
there or not.
-/
namespace Piupiu

open IStream

namespace ReplicaManager

/-- The peers that are returned, and whether the argument was reported. -/
structure Parsed where
  peers : List Peer
  malformed : Bool
  deriving DecidableEq

/-- One turn of the loop; nothing when it indexes past the fields. -/
def parsePeer (peer : Str) : Option Peer := do
  let parsed := split peer 58
  let ip ← parsed[0]?
  let port ← parsed[1]?
  let primary ← parsed[2]?
  pure ⟨ip, atoi (cString port), cString primary = [112]⟩

/-- Nothing inside of the `try` throws a `const char*`, so its handler never
reports an argument as malformed. -/
def parsePeersArgument (peersStr : Str) : Option Parsed :=
  ((split peersStr 44).mapM parsePeer).map fun peers => ⟨peers, false⟩

/-- The constructor, with the buffer of a primary still empty. -/
def new (address : Str) (port : Int) (primary : Bool) (peerList : Str) : Option ReplicaManager :=
  (parsePeersArgument peerList).map fun parsed => ⟨⟨address, port, primary⟩, parsed.peers, []⟩

/-- A peer is what the first three fields of an entry say. -/
def Describes (entry : Str) (peer : Peer) : Prop :=
  ∃ ip port primary more, pieces 58 entry = ip :: port :: primary :: more ∧
    peer = ⟨ip, atoi (cString port), cString primary = [112]⟩

/-- The argument is reported, or each entry has its three fields and gives one peer. -/
def Handles (peersStr : Str) : Prop :=
  ∃ parsed, parsePeersArgument peersStr = some parsed ∧
    (parsed.malformed = true ∨ List.Forall₂ Describes (pieces 44 peersStr) parsed.peers)

theorem parsePeer_eq_some {entry : Str} {peer : Peer} :
    parsePeer entry = some peer ↔ Describes entry peer := by
  rw [parsePeer, split_eq_pieces, Describes]
  rcases pieces 58 entry with _ | ⟨ip, _ | ⟨port, _ | ⟨primary, more⟩⟩⟩
  · simp
  · simp
  · simp
  · simp [eq_comm]

theorem parsePeer_isSome (entry : Str) :
    (parsePeer entry).isSome ↔ ∃ ip port primary, entry = ip ++ 58 :: (port ++ 58 :: primary) ∧
      primary ≠ [] := by
  have hfields : (parsePeer entry).isSome ↔ 2 < (pieces 58 entry).length := by
    rw [parsePeer, split_eq_pieces]
    rcases pieces 58 entry with _ | ⟨ip, _ | ⟨port, _ | ⟨primary, more⟩⟩⟩ <;> simp
  rw [hfields, succ_lt_length_pieces]
  constructor
  · rintro ⟨ip, rest, rfl, hrest⟩
    obtain ⟨port, primary, rfl, hprimary⟩ := succ_lt_length_pieces.mp hrest
    exact ⟨ip, port, primary, rfl, length_pieces_pos.mp hprimary⟩
  · rintro ⟨ip, port, primary, rfl, hprimary⟩
    exact ⟨ip, _, rfl, succ_lt_length_pieces.mpr ⟨port, primary, rfl, length_pieces_pos.mpr hprimary⟩⟩

theorem mapM_eq_some {α β : Type} {f : α → Option β} {as : List α} {bs : List β} :
    as.mapM f = some bs ↔ List.Forall₂ (fun a b => f a = some b) as bs := by
  induction as generalizing bs with
  | nil => simp [eq_comm]
  | cons a as ih =>
    simp only [List.mapM_cons, Option.bind_eq_bind, Option.bind_eq_some_iff, Option.pure_def,
      Option.some.injEq, ih, List.forall₂_cons_left_iff]
    constructor
    · rintro ⟨b, hb, bs, hbs, rfl⟩
      exact ⟨b, bs, hb, hbs, rfl⟩
    · rintro ⟨b, bs, hb, hbs, rfl⟩
      exact ⟨b, hb, bs, hbs, rfl⟩

theorem exists_forall₂ {α β : Type} {R : α → β → Prop} {as : List α} :
    (∃ bs, List.Forall₂ R as bs) ↔ ∀ a ∈ as, ∃ b, R a b := by
  induction as with
  | nil => simp
  | cons a as ih =>
    rw [List.forall_mem_cons, ← ih]
    constructor
    · rintro ⟨_, h⟩
      cases h with
      | cons hb hbs => exact ⟨⟨_, hb⟩, ⟨_, hbs⟩⟩
    · rintro ⟨⟨b, hb⟩, ⟨bs, hbs⟩⟩
      exact ⟨b :: bs, .cons hb hbs⟩

theorem parsePeersArgument_eq_some {peersStr : Str} {parsed : Parsed} :
    parsePeersArgument peersStr = some parsed ↔
      parsed.malformed = false ∧ List.Forall₂ Describes (pieces 44 peersStr) parsed.peers := by
  obtain ⟨peers, malformed⟩ := parsed
  simp only [parsePeersArgument, split_eq_pieces, Option.map_eq_some_iff, mapM_eq_some,
    parsePeer_eq_some, Parsed.mk.injEq]
  constructor
  · rintro ⟨_, h, rfl, rfl⟩
    exact ⟨rfl, h⟩
  · rintro ⟨rfl, h⟩
    exact ⟨peers, h, rfl, rfl⟩

/-- The argument is handled when behind two colons of each entry there is a byte left. -/
theorem handles_iff (peersStr : Str) :
    Handles peersStr ↔ ∀ entry ∈ pieces 44 peersStr, ∃ ip port primary,
      entry = ip ++ 58 :: (port ++ 58 :: primary) ∧ primary ≠ [] := by
  have hread : Handles peersStr ↔ ∃ peers, List.Forall₂ Describes (pieces 44 peersStr) peers := by
    constructor
    · rintro ⟨parsed, h, -⟩
      exact ⟨parsed.peers, (parsePeersArgument_eq_some.mp h).2⟩
    · rintro ⟨peers, h⟩
      exact ⟨⟨peers, false⟩, parsePeersArgument_eq_some.mpr ⟨rfl, h⟩, .inr h⟩
  rw [hread, exists_forall₂]
  simp only [← parsePeer_isSome, Option.isSome_iff_exists, parsePeer_eq_some]

/-- An entry without colons has one field, and the second one is read all the same. -/
theorem not_handles_of_one_field : ¬Handles [97] := by
  have hnone : parsePeersArgument [97] = none := by decide
  rintro ⟨parsed, h, -⟩
  rw [hnone] at h
  cases h

end ReplicaManager

/-- `str` of a number in `launch.py`. -/
def str (n : Int) : Str := if n < 0 then 45 :: decimal n.natAbs else decimal n.natAbs

/-- An entry as `generate_env` writes it. -/
def Peer.render (x : Peer) : Str :=
  x.address ++ [58] ++ str x.port ++ [58] ++ if x.primary then [112] else [115]

/-- `','.join` of the entries. -/
def peersArg (peers : List Peer) : Str := List.intercalate [44] (peers.map Peer.render)

theorem str_of_nonneg {n : Int} (h : 0 ≤ n) : str n = decimal n.toNat := by
  rw [str, if_neg (by omega)]
  congr 1
  omega

/-- A port is read as it was written. -/
theorem atoi_str {port : Int} (h : 0 ≤ port) (hlt : port < 2 ^ 31) :
    atoi (cString (str port)) = port := by
  have hzero : ∀ b ∈ decimal port.toNat, b ≠ 0 := by
    rintro b hb rfl
    exact not_mem_decimal (by decide) _ hb
  rw [str_of_nonneg h, cString_of_ne_zero hzero, atoi_decimal (by omega)]
  omega

theorem Peer.render_ne_nil (x : Peer) : x.render ≠ [] := by simp [Peer.render]

/-- No comma is written inside of an entry. -/
theorem Peer.comma_not_mem_render {x : Peer} (haddress : 44 ∉ x.address) (hport : 0 ≤ x.port) :
    44 ∉ x.render := by
  have hdigits := not_mem_decimal (b := 44) (by decide) x.port.toNat
  rw [Peer.render, str_of_nonneg hport]
  cases x.primary <;> simp [haddress, hdigits]

/-- The fields of a written entry say what the peer is. -/
theorem Peer.describes_render {x : Peer} (haddress : 58 ∉ x.address) (hport : 0 ≤ x.port)
    (hlt : x.port < 2 ^ 31) : ReplicaManager.Describes x.render x := by
  have hdigits : 58 ∉ str x.port := by
    rw [str_of_nonneg hport]
    exact not_mem_decimal (by decide) _
  have hpieces : ∀ mark, mark ≠ 58 →
      pieces 58 (x.address ++ 58 :: (str x.port ++ [58, mark])) = [x.address, str x.port, [mark]] := by
    intro mark hmark
    rw [pieces_append_cons haddress, pieces_append hdigits (List.cons_ne_nil _ _)]
    simpa using hmark.symm
  have hread := atoi_str hport hlt
  obtain ⟨address, port, primary⟩ := x
  cases primary with
  | true =>
    refine ⟨address, str port, [112], [], ?_, ?_⟩
    · simpa [Peer.render] using hpieces 112 (by decide)
    · rw [hread]
      rfl
  | false =>
    refine ⟨address, str port, [115], [], ?_, ?_⟩
    · simpa [Peer.render] using hpieces 115 (by decide)
    · rw [hread]
      rfl

namespace ReplicaManager

theorem parsePeersArgument_peersArg {peers : List Peer}
    (haddress : ∀ x ∈ peers, 44 ∉ x.address ∧ 58 ∉ x.address)
    (hport : ∀ x ∈ peers, 0 ≤ x.port ∧ x.port < 2 ^ 31) :
    parsePeersArgument (peersArg peers) = some ⟨peers, false⟩ := by
  have hentries : pieces 44 (peersArg peers) = peers.map Peer.render := by
    refine pieces_intercalate ?_ fun hlast => ?_
    · intro entry hentry
      obtain ⟨x, hx, rfl⟩ := List.mem_map.mp hentry
      exact Peer.comma_not_mem_render (haddress x hx).1 (hport x hx).1
    · obtain ⟨x, -, hx⟩ := List.mem_map.mp (List.mem_of_getLast? hlast)
      exact x.render_ne_nil hx
  refine parsePeersArgument_eq_some.mpr ⟨rfl, ?_⟩
  rw [hentries, List.forall₂_map_left_iff, List.forall₂_same]
  exact fun x hx => Peer.describes_render (haddress x hx).2 (hport x hx).1 (hport x hx).2

/-- What `launch.py` writes for any peers is read back in the same order, and the
server finds the secondary replicas and the primary one among them. -/
theorem peersArg_roundtrip (peers : List Peer)
    (haddress : ∀ x ∈ peers, 44 ∉ x.address ∧ 58 ∉ x.address)
    (hport : ∀ x ∈ peers, 0 ≤ x.port ∧ x.port ≤ 65535) :
    parsePeersArgument (peersArg peers) = some ⟨peers, false⟩ ∧
    ∀ address port primary, ∃ m, new address port primary (peersArg peers) = some m ∧
      m.getSecondaryReplicas = peers.filter (fun peer => !peer.primary) ∧
      (m.isPrimary = false → m.getPrimaryReplica = peers.find? (fun peer => peer.primary) ∧
        (m.getPrimaryReplica = none ↔ ∀ peer ∈ peers, peer.primary = false)) := by
  have hparsed := parsePeersArgument_peersArg haddress fun x hx =>
    ⟨(hport x hx).1, by have := (hport x hx).2; omega⟩
  refine ⟨hparsed, fun address port primary => ⟨⟨⟨address, port, primary⟩, peers, []⟩, ?_, rfl, ?_⟩⟩
  · rw [new, hparsed]
    rfl
  · intro hsecondary
    have hfind : getPrimaryReplica ⟨⟨address, port, primary⟩, peers, []⟩ =
        peers.find? fun peer => peer.primary := by
      rw [getPrimaryReplica, hsecondary]
      rfl
    refine ⟨hfind, ?_⟩
    rw [hfind, List.find?_eq_none]
    simp

/-- Two peers, one of them without an address. -/
theorem peersArg_roundtrip_two :
    let peers : List Peer := [⟨[], 65535, false⟩, ⟨[49], 0, true⟩]
    parsePeersArgument (peersArg peers) = some ⟨peers, false⟩ :=
  (peersArg_roundtrip [⟨[], 65535, false⟩, ⟨[49], 0, true⟩] (by decide) (by decide)).1

end ReplicaManager

end Piupiu
