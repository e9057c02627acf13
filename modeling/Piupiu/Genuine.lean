import Piupiu.Linearization

/-!
# Where a notification comes from

What holds of every run of the microblog holds of the server: a notification that
it sends goes back to packets that were handled, one that connected the recipient,
one by which the recipient followed the sender, and the SEND itself.
-/
namespace Piupiu

open Microblog History

/-- A notification with this text at this host has its reasons among the requests: the
host connected as the reader, and the author sent the body from a host that had
connected as the author, after the reader had followed the author. -/
def Genuine (requests : List (Request Str Str × SocketAddress)) (a : SocketAddress) (text : Str) :
    Prop :=
  ∃ author body reader, text = notificationText body author ∧ author ≠ reader ∧
    (.connect reader, a) ∈ requests ∧ ∃ older newer device,
      requests = older ++ (.send body, device) :: newer ∧ (.connect author, device) ∈ older ∧
      ∃ earlier later device', older = earlier ++ (.follow author, device') :: later ∧
        (.connect reader, device') ∈ earlier

namespace Server

theorem requests_append (ops more : List BlogOp) :
    requests (ops ++ more) = requests ops ++ requests more := List.filterMap_append

/-- A request to connect is among the requests of its history. -/
theorem mem_requests {ops : List BlogOp} {u : Str} {a : SocketAddress}
    (h : SomeStep (fun _ op => op = .request (.connect u) a) ops) :
    (Request.connect u, a) ∈ requests ops := by
  obtain ⟨before, op, after, rfl, rfl⟩ := h
  rw [requests_append]
  exact List.mem_append_right _ List.mem_cons_self

theorem mem_asked {packets : List (Packet × SocketAddress)} {r : Request Str Str}
    {a : SocketAddress} (h : (r, a) ∈ asked packets) :
    ∃ message, (message, a) ∈ packets ∧ message.request? = some r := by
  obtain ⟨⟨message, a'⟩, hmem, he⟩ := List.mem_filterMap.mp h
  obtain ⟨r', hr, he⟩ := Option.map_eq_some_iff.mp he
  cases he
  exact ⟨message, hmem, hr⟩

/-- Every notification that a server sends is genuine. -/
theorem notifications_genuine (thisPeer : Peer) (peers : List Peer) (disk : Disk) (moves : List Move)
    {a : SocketAddress} {message : Packet}
    (h : .sent a message .notification ∈ ((new thisPeer peers disk ⟨[]⟩).run moves).shared.log) :
    Genuine (asked (accepted (new thisPeer peers disk ⟨[]⟩) moves)) a message.text := by
  obtain ⟨ops, hrefines, ⟨rest, hasked⟩, -⟩ := refines_microblog thisPeer peers disk moves
  rw [← hasked]
  have hnotice : (a, message.text) ∈ notices ((new thisPeer peers disk ⟨[]⟩).run moves).shared.log :=
    List.mem_filterMap.mpr ⟨_, h, rfl⟩
  rw [hrefines.shown] at hnotice
  obtain ⟨⟨a', p⟩, hp, he⟩ := List.mem_map.mp hnotice
  obtain ⟨rfl, htext⟩ := Prod.mk.inj he
  have hshown := List.mem_of_mem_filter hp
  obtain ⟨atTurn, last, _, hops, -, hdevice⟩ := shown_came hshown
  obtain ⟨atSend, send, afterSend, hops', device, rfl, hspeaks, hfollower⟩ :=
    post_came (.inr (.inr ⟨a', hshown⟩))
  obtain ⟨atFollow, follow, afterFollow, hsent, device', rfl, hspeaks', hne⟩ := follower_came hfollower
  have hreader : (Request.connect p.reader, a') ∈ requests ops := by
    rw [hops, requests_append]
    exact List.mem_append_left _ (mem_requests (device_came hdevice))
  have hauthor := mem_requests (device_came hspeaks.1)
  have hfollowing := mem_requests (device_came hspeaks'.1)
  have hrequests : requests ops ++ rest =
      requests atSend ++ (.send p.body, device) :: (requests afterSend ++ rest) := by
    rw [hops', requests_append, List.append_assoc]
    rfl
  have hbefore : requests atSend =
      requests atFollow ++ (.follow p.author, device') :: requests afterFollow := by
    rw [hsent, requests_append]
    rfl
  have hplain : cString p.text = p.text := by
    have hbody : (Request.send p.body, device) ∈
        asked (accepted (new thisPeer peers disk ⟨[]⟩) moves) := by
      rw [← hasked, hrequests]
      simp
    have hname : (Request.connect p.author, device) ∈
        asked (accepted (new thisPeer peers disk ⟨[]⟩) moves) := by
      rw [← hasked, hrequests]
      exact List.mem_append_left _ hauthor
    obtain ⟨m, -, hm⟩ := mem_asked hbody
    obtain ⟨m', -, hm'⟩ := mem_asked hname
    rw [Post.text, ← (request_send.mp hm).2, ← (request_connect.mp hm').2]
    exact cString_notificationText _ _
  exact ⟨p.author, p.body, p.reader, htext.symm.trans hplain, hne, List.mem_append_left _ hreader,
    _, _, device, hrequests, hauthor, _, _, device', hbefore, hfollowing⟩

/-- Two users connect, the second one follows the first one, which sends a message. -/
def followed : List Move :=
  handling 32 (clientPacket packetConnectCmd 0 [97]) ⟨[], 1⟩ ++
    handling 32 (clientPacket packetConnectCmd 0 [98]) ⟨[], 2⟩ ++
    handling 32 (clientPacket packetFollowCmd 0 [97]) ⟨[], 2⟩ ++
    handling 32 (clientPacket packetSendCmd 0 [109]) ⟨[], 1⟩ ++ [.worker 0]

theorem notifications_genuine_followed : Genuine (asked (accepted alone followed)) ⟨[], 2⟩
    (clientPacket packetNotification 8 (notificationText [109] [97])).text := by
  have hsent : .sent ⟨[], 2⟩ ⟨packetNotification, 8, 1, 0, (clientPacket packetNotification 8
      (notificationText [109] [97])).payload⟩ .notification ∈
        ((new ⟨[], 0, true⟩ [] ⟨true, none⟩ ⟨[]⟩).run followed).shared.log := by decide +kernel
  have hgenuine := notifications_genuine ⟨[], 0, true⟩ [] ⟨true, none⟩ followed hsent
  exact hgenuine

end Server

end Piupiu
