import Piupiu.PeersArgument
import Piupiu.Acceptance

/-!
# Launching the servers

`launch.py` starts a server for each entry of its table and tells it in the
environment which peers there are; `main` reads the environment and makes the server.
-/
namespace Piupiu

/-- The variables that `main` asks for, those that are not set left out. -/
structure Env where
  bindIp : Option Str
  bindPort : Option Str
  peers : Option Str
  primary : Option Str

/-- `0.0.0.0`. -/
def anyAddress : Str := [48, 46, 48, 46, 48, 46, 48]

/-- `true`. -/
def trueText : Str := [116, 114, 117, 101]

/-- `false`. -/
def falseText : Str := [102, 97, 108, 115, 101]

/-- The peers of an entry are all entries with another port. -/
def generateEnv (table : List Peer) (peer : Peer) : Env where
  bindIp := some anyAddress
  bindPort := some (str peer.port)
  peers := some (peersArg (table.filter fun x => x.port ≠ peer.port))
  primary := some (if peer.primary then trueText else falseText)

namespace Server

/-- `main` up to `Start`; nothing when a constructor does not come through. The file is
read with whatever `numProfiles` was before. -/
def main (env : Env) (disk : Disk) (numProfiles : Int) : Option Server :=
  let bindIp := cString (env.bindIp.getD [])
  let bindPort := match env.bindPort with
    | some bindPortVar => IStream.atoi (cString bindPortVar)
    | none => -1
  let peers := cString (env.peers.getD [])
  let primary := match env.primary with
    | some primaryVar => decide (cString primaryVar = trueText)
    | none => false
  match ProfileManager.readProfilesFromFile disk.profiles numProfiles with
  | .ok (profiles, _) => (ReplicaManager.parsePeersArgument peers).map fun parsed =>
      .new ⟨bindIp, bindPort, primary⟩ parsed.peers disk profiles
  | .error _ => none

end Server

/-- An entry that can be written into the environment and read again. -/
structure Peer.Writable (x : Peer) : Prop where
  separators : 44 ∉ x.address ∧ 58 ∉ x.address
  terminator : 0 ∉ x.address
  port : 0 ≤ x.port ∧ x.port ≤ 65535

theorem zero_not_mem_render {x : Peer} (h : x.Writable) : 0 ∉ x.render := by
  have hdigits := IStream.not_mem_decimal (b := 0) (by decide) x.port.toNat
  rw [Peer.render, str_of_nonneg h.port.1]
  cases x.primary <;> simp [h.terminator, hdigits]

theorem mem_intercalate {b separator : UInt8} {entries : List Str}
    (h : b ∈ List.intercalate [separator] entries) : b = separator ∨ ∃ entry ∈ entries, b ∈ entry := by
  induction entries with
  | nil => cases h
  | cons entry entries ih =>
    cases entries with
    | nil => exact .inr ⟨entry, List.mem_cons_self, by simpa using h⟩
    | cons next entries =>
      rw [List.intercalate_cons_cons, List.append_assoc] at h
      obtain h | h := List.mem_append.mp h
      · exact .inr ⟨entry, List.mem_cons_self, h⟩
      obtain h | h := List.mem_append.mp h
      · exact .inl (List.mem_singleton.mp h)
      · exact (ih h).imp_right fun ⟨e, he, hb⟩ => ⟨e, List.mem_cons_of_mem _ he, hb⟩

/-- Nothing ends the text of the peers too early. -/
theorem cString_peersArg {peers : List Peer} (h : ∀ x ∈ peers, x.Writable) :
    cString (peersArg peers) = peersArg peers := by
  refine cString_of_ne_zero fun b hb hzero => ?_
  subst hzero
  obtain h₀ | ⟨entry, hentry, hb⟩ := mem_intercalate hb
  · cases h₀
  · obtain ⟨x, hx, rfl⟩ := List.mem_map.mp hentry
    exact zero_not_mem_render (h x hx) hb

namespace Server

variable {disk : Disk} {numProfiles r : Int} {profiles : ProfileManager}

/-- The server that is made for an entry of the table. -/
theorem main_generateEnv {table : List Peer} (htable : ∀ x ∈ table, x.Writable) {peer : Peer}
    (hpeer : peer ∈ table)
    (hread : ProfileManager.readProfilesFromFile disk.profiles numProfiles = .ok (profiles, r)) :
    main (generateEnv table peer) disk numProfiles =
      some (.new ⟨anyAddress, peer.port, peer.primary⟩ (table.filter fun x => x.port ≠ peer.port)
        disk profiles) := by
  have hothers : ∀ x ∈ table.filter fun x => x.port ≠ peer.port, x.Writable := fun x hx =>
    htable x (List.mem_of_mem_filter hx)
  have hparsed : ReplicaManager.parsePeersArgument
      (cString (peersArg (table.filter fun x => x.port ≠ peer.port))) =
        some ⟨table.filter fun x => x.port ≠ peer.port, false⟩ := by
    rw [cString_peersArg hothers]
    refine ReplicaManager.parsePeersArgument_peersArg (fun x hx => (hothers x hx).separators) fun x hx =>
      ⟨(hothers x hx).port.1, ?_⟩
    have := (hothers x hx).port.2
    omega
  have hport : IStream.atoi (cString (str peer.port)) = peer.port := by
    have hbound := (htable peer hpeer).port
    exact atoi_str hbound.1 (by omega)
  have haddress : cString anyAddress = anyAddress := by decide
  have hprimary : decide (cString (if peer.primary then trueText else falseText) = trueText) =
      peer.primary := by
    cases peer.primary <;> decide
  simp only [main, generateEnv, Option.getD_some, hread, hparsed, hport, haddress, hprimary,
    Option.map_some]

end Server

namespace Deployment

variable (d : Deployment)

/-- The table of `launch.py`. -/
def table : List Peer := nodes.map d.peer

theorem mem_table (n : Node) : d.peer n ∈ d.table := List.mem_map_of_mem (mem_nodes n)

/-- The entries with another port are those of the other servers. -/
theorem others_iff : (∀ n, (d.table.filter fun x => x.port ≠ (d.peer n).port) = d.peers n) ↔
    ∀ n n', (d.peer n).port = (d.peer n').port → n = n' := by
  constructor
  · intro h n n' hport
    by_contra hne
    have hmem : d.peer n' ∈ d.peers n :=
      List.mem_map_of_mem (List.mem_filter.mpr ⟨mem_nodes n', by simpa using Ne.symm hne⟩)
    rw [← h n] at hmem
    have hother := (List.mem_filter.mp hmem).2
    simp [hport] at hother
  · intro h n
    rw [table, List.filter_map, peers]
    congr 1
    refine List.filter_congr fun n' _ => ?_
    have hiff : (d.peer n').port = (d.peer n).port ↔ n' = n := ⟨h n' n, fun he => by rw [he]⟩
    simp [hiff]

/-- The script starts each server with all the others as its peers exactly when the
ports in its table differ. -/
theorem launches_iff (htable : ∀ n, (d.peer n).Writable) {disk : Disk} {numProfiles r : Int}
    {profiles : ProfileManager}
    (hread : ProfileManager.readProfilesFromFile disk.profiles numProfiles = .ok (profiles, r)) :
    (∀ n, Server.main (generateEnv d.table (d.peer n)) disk numProfiles =
      some (.new { d.peer n with address := anyAddress } (d.peers n) disk profiles)) ↔
    ∀ n n', (d.peer n).port = (d.peer n').port → n = n' := by
  have hwritable : ∀ x ∈ d.table, x.Writable := fun x hx => by
    obtain ⟨n, -, rfl⟩ := List.mem_map.mp hx
    exact htable n
  rw [← others_iff]
  refine forall_congr' fun n => ?_
  rw [Server.main_generateEnv hwritable (d.mem_table n) hread, Option.some.injEq]
  constructor
  · intro h
    exact congrArg (fun s : Server => s.replicaManager.peers) h
  · intro h
    rw [h]

/-- The table as the script has it. -/
def scriptPeer : Node → Peer
  | .primary => ⟨[49, 50, 55, 46, 48, 46, 48, 46, 49], 6000, true⟩
  | .secondary i => ⟨[49, 50, 55, 46, 48, 46, 48, 46, 49], 6001 + i.val, false⟩

theorem scriptPeer_primary (n : Node) : (scriptPeer n).primary = true ↔ n = .primary := by
  cases n <;> simp [scriptPeer]

theorem scriptPeer_port {n n' : Node} (h : (scriptPeer n).port = (scriptPeer n').port) : n = n' := by
  cases n <;> cases n' <;> simp [scriptPeer] at h ⊢ <;> omega

def script : Deployment :=
  ⟨scriptPeer, scriptPeer_primary, fun _ _ h => scriptPeer_port (congrArg SocketAddress.port h)⟩

/-- The primary that the script starts on a new disk. -/
theorem launches_script : Server.main (generateEnv script.table (script.peer .primary)) ⟨true, none⟩ 0 =
    some (.new { script.peer .primary with address := anyAddress }
      [script.peer (.secondary 0), script.peer (.secondary 1), script.peer (.secondary 2)]
      ⟨true, none⟩ ⟨[]⟩) := by
  have htable : ∀ n, (script.peer n).Writable := fun n => by
    cases n with
    | primary => exact ⟨by decide, by decide, by decide⟩
    | secondary i => exact ⟨by decide +revert, by decide +revert, by simp only [script, scriptPeer]; omega⟩
  have hread : ProfileManager.readProfilesFromFile none 0 = .ok (⟨[]⟩, 0) := rfl
  exact (launches_iff script htable hread).mpr (fun _ _ => scriptPeer_port) .primary

end Deployment

end Piupiu
