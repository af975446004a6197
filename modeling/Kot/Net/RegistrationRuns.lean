import Kot.Lib.Lists
import Kot.Net.Registration

/-! Which calls keep every port registered for the sockets that have it, and for no others. -/
namespace Kot.Net.Registration

open List Function State Option
open Kot.Kernel (Fault ok_bind bind_eq_ok vectorRemove_ok vectorRemove_last)
open Kot.Lib (Run Guarded getElem?_concat_eq_some)

/-- The handlers of a port are whole, know their places and belong to different owners. -/
def CleanAt (l : List (Option Handler)) (B : Owner → Prop) : Prop :=
  ∃ hs : List Handler, l = hs.map some ∧
    (∀ (i : ℕ) (h : Handler), hs[i]? = some h → h.index = i) ∧
    (hs.map Handler.owner).Nodup ∧ ∀ o, o ∈ hs.map Handler.owner ↔ B o

theorem ownersOf_map (hs : List Handler) : ownersOf (hs.map some) = .ok (hs.map Handler.owner) := by
  induction hs with
  | nil => rfl
  | cons h hs ih => simp only [map_cons, ownersOf, ih, ok_bind]

variable {l : List (Option Handler)} {B : Owner → Prop} {x : Option Handler} {s s' : State} {k : ℕ}
  {f : Socket → Except Fault (Errno × State)} {e : Event} {r : Errno}

theorem ownersOf_eq_ok {owners : List Owner}
    (h : ownersOf l = .ok owners) : ∃ hs : List Handler, l = hs.map some ∧ owners = hs.map Handler.owner := by
  induction l generalizing owners with
  | nil => exact ⟨[], rfl, (Except.ok.inj h).symm⟩
  | cons x l ih =>
    cases x with
    | none => cases h
    | some x =>
      obtain ⟨rest, hrest, h⟩ := bind_eq_ok h
      obtain ⟨hs, rfl, rfl⟩ := ih hrest
      exact ⟨x :: hs, rfl, (Except.ok.inj h).symm⟩

theorem CleanAt.congr {B B' : Owner → Prop} (h : CleanAt l B)
    (hB : ∀ o, B o ↔ B' o) : CleanAt l B' := by
  obtain ⟨hs, hl, hindex, hnodup, hmem⟩ := h
  exact ⟨hs, hl, hindex, hnodup, fun o => (hmem o).trans (hB o)⟩

theorem CleanAt.concat {o : Owner} (h : CleanAt l B)
    (ho : ¬ B o) : CleanAt (l ++ [some ⟨o, l.length⟩]) fun o' => B o' ∨ o' = o := by
  obtain ⟨hs, rfl, hindex, hnodup, hmem⟩ := h
  refine ⟨hs ++ [⟨o, hs.length⟩], by simp, ?_, ?_, ?_⟩
  · intro i h hi
    rcases getElem?_concat_eq_some.mp hi with hi | ⟨rfl, rfl⟩
    · exact hindex i h hi
    · rfl
  · rw [map_append, nodup_append]
    refine ⟨hnodup, by simp, ?_⟩
    intro a ha b hb hab
    obtain rfl : b = o := by simpa using hb
    exact ho ((hmem b).mp (hab ▸ ha))
  · intro o'
    rw [map_append, mem_append, hmem]
    simp

theorem CleanAt.init (h : CleanAt (l ++ [x]) B) :
    ∃ y, x = some y ∧ CleanAt l fun o => B o ∧ o ≠ y.owner := by
  obtain ⟨hs, hl, hindex, hnodup, hmem⟩ := h
  obtain ⟨hs, rest, rfl, rfl, hrest⟩ := append_eq_map_iff.mp hl
  obtain ⟨y, rfl, rfl⟩ := map_eq_singleton_iff.mp hrest
  refine ⟨y, rfl, hs, rfl, ?_, ?_, ?_⟩
  · intro i h hi
    exact hindex i h (getElem?_concat_eq_some.mpr (.inl hi))
  · rw [map_append] at hnodup
    exact (nodup_append.mp hnodup).1
  · intro o
    change _ ↔ B o ∧ o ≠ y.owner
    rw [← hmem o]
    rw [map_append, nodup_append] at hnodup
    simp only [map_append, mem_append, map_cons, map_nil, mem_singleton]
    constructor
    · intro ho
      exact ⟨.inl ho, fun heq => hnodup.2.2 o ho y.owner (by simp) heq⟩
    · rintro ⟨ho | ho, hne⟩
      · exact ho
      · exact absurd ho hne

theorem CleanAt.get {i : ℕ}
    (h : CleanAt l B) (hi : l[i]? = some x) : ∃ y, x = some y ∧ y.index = i ∧ B y.owner := by
  obtain ⟨hs, rfl, hindex, -, hmem⟩ := h
  rw [getElem?_map, map_eq_some_iff] at hi
  obtain ⟨y, hy, rfl⟩ := hi
  exact ⟨y, rfl, hindex i y hy, (hmem _).mp (mem_map_of_mem (mem_of_getElem? hy))⟩

theorem delivers_of_clean {t : Table} {B : Port → Owner → Prop}
    (h : ∀ port, CleanAt ((t port).getD []) (B port)) : Delivers t B := by
  intro port
  obtain ⟨hs, hl, -, hnodup, hmem⟩ := h port
  exact ⟨hs.map Handler.owner, by rw [processPacket, hl, ownersOf_map], hnodup, hmem⟩

structure Inv (s : State) : Prop where
  clean : ∀ p port, CleanAt ((s.table p port).getD []) (Belongs s p port)
  allOpen : ∀ k x, s.socket k = some x → x.isOpen = true
  placed : ∀ k x port, s.socket k = some x → x.localPort = some port →
    ((s.table x.protocol port).getD [])[x.listenIndex]? = some (some ⟨.socket k, x.listenIndex⟩)
  udpAddress : ∀ k x, s.socket k = some x → x.protocol = .udp → x.address = x.localPort
  fresh : ∀ k, s.next ≤ k → s.socket k = none

theorem Inv.registered (h : Inv s) : Registered s := fun p => delivers_of_clean (h.clean p)

section Change

variable {s s' : State} {k : ℕ} {x x' : Socket} {t : Table} {port : Port}

variable {p : Protocol} {o : Outcome} {a : Port} {i : ℕ} {r : Errno}

theorem belongs_of_ne {o : Owner} (hs : s'.socket = update s.socket k (some x'))
    (ho : o ≠ .socket k) : Belongs s' p port o ↔ Belongs s p port o := by
  cases o with
  | dhcp => rfl
  | socket j =>
    have hj : j ≠ k := fun hj => ho (by rw [hj])
    simp only [Belongs, hs, update_of_ne hj]

theorem belongs_socket (hx : s.socket k = some x) :
    Belongs s p port (.socket k) ↔ x.isOpen = true ∧ x.protocol = p ∧ x.localPort = some port := by
  simp [Belongs, hx]

theorem belongs_self (hs : s'.socket = update s.socket k (some x')) :
    Belongs s' p port (.socket k) ↔ x'.isOpen = true ∧ x'.protocol = p ∧ x'.localPort = some port :=
  belongs_socket (by rw [hs, update_self])

theorem socket_cases {j : ℕ} {y : Socket} (hs : s'.socket = update s.socket k (some x'))
    (hy : s'.socket j = some y) : (j = k ∧ x' = y) ∨ (j ≠ k ∧ s.socket j = some y) := by
  rw [hs] at hy
  by_cases hj : j = k
  · rw [hj, update_self] at hy
    exact .inl ⟨hj, Option.some.inj hy⟩
  · rw [update_of_ne hj] at hy
    exact .inr ⟨hj, hy⟩

/-- The table of the socket's protocol without the socket. -/
structure Cleared (s : State) (k : ℕ) (p : Protocol) (t : Table) : Prop where
  clean : ∀ port, CleanAt ((t port).getD []) fun o => Belongs s p port o ∧ o ≠ .socket k
  placed : ∀ j y port, j ≠ k → s.socket j = some y → y.protocol = p → y.localPort = some port →
    ((t port).getD [])[y.listenIndex]? = some (some ⟨.socket j, y.listenIndex⟩)

section
variable (h : Inv s) (hx : s.socket k = some x)
include h hx

theorem Inv.clean_without (hport : x.localPort ≠ some port) :
    CleanAt ((s.table x.protocol port).getD []) fun o =>
      Belongs s x.protocol port o ∧ o ≠ .socket k := by
  refine (h.clean x.protocol port).congr fun o => ⟨fun ho => ⟨ho, ?_⟩, And.left⟩
  rintro rfl
  exact hport ((belongs_socket hx).mp ho).2.2

theorem Inv.cleared_of_none (hport : x.localPort = none) :
    Cleared s k x.protocol (s.table x.protocol) := by
  constructor
  · intro port
    exact h.clean_without hx (by simp [hport])
  · intro j y port _ hy hp hlocal
    rw [← hp]
    exact h.placed j y port hy hlocal

theorem Inv.cleared_of_last (hport : x.localPort = some port)
    {handlers : List (Option Handler)} (ht : s.table x.protocol port = some handlers)
    (hlast : x.listenIndex + 1 = handlers.length) :
    ∃ t, removeListenPort (s.table x.protocol) port x.listenIndex = .ok t ∧
      Cleared s k x.protocol t := by
  have hown := h.placed k x port hx hport
  rw [ht, getD_some] at hown
  obtain ⟨l, rfl⟩ : ∃ l, handlers = l ++ [some ⟨.socket k, x.listenIndex⟩] := by
    apply getLast?_eq_some_iff.mp
    rw [getLast?_eq_getElem?, ← hlast]
    exact hown
  have hlen : x.listenIndex = l.length := by simpa using hlast
  have hremove : removeListenPort (s.table x.protocol) port x.listenIndex =
      .ok (update (s.table x.protocol) port (some l)) := by
    simp only [removeListenPort, ht, hown]
    rw [hlen, vectorRemove_last, ok_bind, set_eq_of_length_le (le_refl _)]
  refine ⟨_, hremove, ?_, ?_⟩
  · intro q
    by_cases hq : q = port
    · subst hq
      have hclean := h.clean x.protocol q
      rw [ht, getD_some] at hclean
      obtain ⟨y, hy, hclean⟩ := hclean.init
      cases hy
      rw [update_self]
      exact hclean
    · rw [update_of_ne hq]
      exact h.clean_without hx (by simpa [hport] using Ne.symm hq)
  · intro j y q hj hy hp hlocal
    have hplace := h.placed j y q hy hlocal
    rw [hp] at hplace
    by_cases hq : q = port
    · subst hq
      rw [ht, getD_some] at hplace
      rw [update_self]
      rcases getElem?_concat_eq_some.mp hplace with hplace | ⟨-, heq⟩
      · exact hplace
      · simp only [some.injEq, Handler.mk.injEq, Owner.socket.injEq] at heq
        exact absurd heq.1.symm hj
    · rw [update_of_ne hq]
      exact hplace

theorem Inv.removal (hfits : RemovalFits s x a) :
    ∃ t, removeListenPort (s.table x.protocol) a x.listenIndex = .ok t ∧ Cleared s k x.protocol t := by
  unfold RemovalFits at hfits
  cases hlocal : x.localPort with
  | none =>
    rw [hlocal] at hfits
    refine ⟨s.table x.protocol, ?_, h.cleared_of_none hx hlocal⟩
    simp only [removeListenPort, hfits]
  | some p =>
    rw [hlocal] at hfits
    obtain ⟨rfl, handlers, ht, hlast⟩ := hfits
    exact h.cleared_of_last hx hlocal ht hlast

theorem Inv.change (hsocket : s'.socket = update s.socket k (some x'))
    (htable : s'.table = update s.table x.protocol t) (hnext : s'.next = s.next)
    (hclean : ∀ port, CleanAt ((t port).getD []) fun o =>
    (Belongs s x.protocol port o ∧ o ≠ .socket k) ∨ (o = .socket k ∧ x'.localPort = some port))
    (hplaced : ∀ j y port, j ≠ k → s.socket j = some y → y.protocol = x.protocol →
    y.localPort = some port →
    ((t port).getD [])[y.listenIndex]? = some (some ⟨.socket j, y.listenIndex⟩))
    (hown : ∀ port, x'.localPort = some port →
    ((t port).getD [])[x'.listenIndex]? = some (some ⟨.socket k, x'.listenIndex⟩))
    (hp : x'.protocol = x.protocol) (hopen : x'.isOpen = x.isOpen)
    (hudp : x.protocol = .udp → x'.address = x'.localPort) : Inv s' := by
  have hk : k < s.next := by
    by_contra hk
    rw [h.fresh k (by omega)] at hx
    cases hx
  have hopen' : x'.isOpen = true := by rw [hopen, h.allOpen k x hx]
  constructor
  · intro p port
    by_cases hpp : p = x.protocol
    · subst hpp
      rw [htable, update_self]
      refine (hclean port).congr ?_
      intro o
      by_cases ho : o = .socket k
      · subst ho
        rw [belongs_self hsocket]
        simp [hopen', hp]
      · rw [belongs_of_ne hsocket ho]
        simp [ho]
    · rw [htable, update_of_ne hpp]
      refine (h.clean p port).congr ?_
      intro o
      by_cases ho : o = .socket k
      · subst ho
        rw [belongs_self hsocket, belongs_socket hx]
        exact iff_of_false (fun h => hpp h.2.1.symm) fun h => hpp (h.2.1.symm.trans hp)
      · exact (belongs_of_ne hsocket ho).symm
  · intro j y hy
    obtain ⟨-, rfl⟩ | ⟨hj, hy⟩ := socket_cases hsocket hy
    · exact hopen'
    · exact h.allOpen j y hy
  · intro j y port hy hlocal
    obtain ⟨rfl, rfl⟩ | ⟨hj, hy⟩ := socket_cases hsocket hy
    · rw [hp, htable, update_self]
      exact hown port hlocal
    · rw [htable]
      by_cases hpp : y.protocol = x.protocol
      · rw [hpp, update_self]
        exact hplaced j y port hj hy hpp hlocal
      · rw [update_of_ne hpp]
        exact h.placed j y port hy hlocal
  · intro j y hy hyp
    obtain ⟨-, rfl⟩ | ⟨hj, hy⟩ := socket_cases hsocket hy
    · exact hudp (hp.symm.trans hyp)
    · exact h.udpAddress j y hy hyp
  · intro j hj
    rw [hnext] at hj
    rw [hsocket, update_of_ne (by omega)]
    exact h.fresh j hj

theorem Inv.register (hc : Cleared s k x.protocol t)
    (hsocket : s'.socket = update s.socket k (some x'))
    (htable : s'.table = update s.table x.protocol (listenPort t port (.socket k)).1)
    (hnext : s'.next = s.next) (hlocal : x'.localPort = some port)
    (hindex : x'.listenIndex = (listenPort t port (.socket k)).2)
    (hp : x'.protocol = x.protocol) (hopen : x'.isOpen = x.isOpen)
    (hudp : x.protocol = .udp → x'.address = x'.localPort) : Inv s' := by
  refine h.change hx hsocket htable hnext ?_ ?_ ?_ hp hopen hudp
  · intro q
    by_cases hq : q = port
    · subst hq
      simp only [listenPort, update_self, getD_some]
      refine ((hc.clean q).concat (fun ho => ho.2 rfl)).congr ?_
      simp [hlocal]
    · simp only [listenPort, update_of_ne hq]
      refine (hc.clean q).congr ?_
      intro o
      have : port ≠ q := fun heq => hq heq.symm
      simp [hlocal, this]
  · intro j y q hj hy hyp hyl
    have hplace := hc.placed j y q hj hy hyp hyl
    by_cases hq : q = port
    · subst hq
      simp only [listenPort, update_self, getD_some]
      exact getElem?_concat_eq_some.mpr (.inl hplace)
    · simp only [listenPort, update_of_ne hq]
      exact hplace
  · intro q hq
    rw [hlocal] at hq
    cases hq
    simp only [hindex, listenPort, update_self, getD_some]
    exact getElem?_concat_eq_some.mpr (.inr ⟨rfl, rfl⟩)

theorem Inv.leave (hc : Cleared s k x.protocol t)
    (hsocket : s'.socket = update s.socket k (some x'))
    (htable : s'.table = update s.table x.protocol t) (hnext : s'.next = s.next)
    (hlocal : x'.localPort = none) (hp : x'.protocol = x.protocol) (hopen : x'.isOpen = x.isOpen)
    (hudp : x.protocol = .udp → x'.address = x'.localPort) : Inv s' := by
  refine h.change hx hsocket htable hnext ?_ hc.placed ?_ hp hopen hudp
  · intro q
    refine (hc.clean q).congr ?_
    simp [hlocal]
  · intro q hq
    rw [hlocal] at hq
    cases hq

end

/-- What no registration of `k` in the table can mend. -/
def Broken (s : State) (k : ℕ) (p : Protocol) (t : Table) : Prop :=
  (∃ port, none ∈ (t port).getD []) ∨
  (∃ port o, o ≠ .socket k ∧ Belongs s p port o ∧ ∀ h, some h ∈ (t port).getD [] → h.owner ≠ o) ∨
  ∃ port h, some h ∈ (t port).getD [] ∧ h.owner = .socket k

theorem mem_handlers_of_delivers (h : Delivers t (Belongs s p)) :
    ∃ hs : List Handler, (t port).getD [] = hs.map some ∧ (hs.map Handler.owner).Nodup ∧
      ∀ o, o ∈ hs.map Handler.owner ↔ Belongs s p port o := by
  obtain ⟨owners, howners, hnodup, hmem⟩ := h port
  obtain ⟨hs, hl, rfl⟩ := ownersOf_eq_ok howners
  exact ⟨hs, hl, hnodup, hmem⟩

theorem Broken.not_delivers_of_none (hb : Broken s k p t)
    (hsocket : s'.socket = update s.socket k (some x')) (hlocal : x'.localPort = none) :
    ¬ Delivers t (Belongs s' p) := by
  intro h
  rcases hb with ⟨q, hnone⟩ | ⟨q, o, ho, hbelongs, hmissing⟩ | ⟨q, y, hy, howner⟩
  · obtain ⟨hs, hl, -, -⟩ := mem_handlers_of_delivers h
    rw [hl] at hnone
    simp at hnone
  · obtain ⟨hs, hl, -, hmem⟩ := mem_handlers_of_delivers h
    obtain ⟨y, hy, rfl⟩ := mem_map.mp ((hmem o).mpr ((belongs_of_ne hsocket ho).mpr hbelongs))
    exact hmissing y (by rw [hl]; exact mem_map_of_mem hy) rfl
  · obtain ⟨hs, hl, -, hmem⟩ := mem_handlers_of_delivers h
    rw [hl] at hy
    have hself : Owner.socket k ∈ hs.map Handler.owner := by
      rw [← howner]
      exact mem_map_of_mem (by simpa using hy)
    have := ((belongs_self hsocket).mp ((hmem _).mp hself)).2.2
    rw [hlocal] at this
    cases this

theorem Broken.not_delivers_of_listen (hb : Broken s k p t)
    (hsocket : s'.socket = update s.socket k (some x')) (hlocal : x'.localPort = some port) :
    ¬ Delivers (listenPort t port (.socket k)).1 (Belongs s' p) := by
  intro h
  have hsub : ∀ q y, y ∈ (t q).getD [] → y ∈ ((listenPort t port (.socket k)).1 q).getD [] := by
    intro q y hy
    by_cases hq : q = port
    · subst hq
      simp [listenPort, hy]
    · simpa [listenPort, update_of_ne hq] using hy
  rcases hb with ⟨q, hnone⟩ | ⟨q, o, ho, hbelongs, hmissing⟩ | ⟨q, y, hy, howner⟩
  · obtain ⟨hs, hl, -, -⟩ := mem_handlers_of_delivers h
    have := hsub q none hnone
    rw [hl] at this
    simp at this
  · obtain ⟨hs, hl, -, hmem⟩ := mem_handlers_of_delivers h
    obtain ⟨y, hy, rfl⟩ := mem_map.mp ((hmem o).mpr ((belongs_of_ne hsocket ho).mpr hbelongs))
    have hy' : some y ∈ ((listenPort t port (.socket k)).1 q).getD [] := by
      rw [hl]
      exact mem_map_of_mem hy
    by_cases hq : q = port
    · subst hq
      simp only [listenPort, update_self, getD_some, mem_append,
        mem_singleton, some.injEq] at hy'
      rcases hy' with hy' | rfl
      · exact hmissing y hy' rfl
      · exact ho rfl
    · simp only [listenPort, update_of_ne hq] at hy'
      exact hmissing y hy' rfl
  · obtain ⟨hs, hl, hnodup, hmem⟩ := mem_handlers_of_delivers h
    have hy' := hsub q _ hy
    rw [hl] at hy'
    have hself : Owner.socket k ∈ hs.map Handler.owner := by
      rw [← howner]
      exact mem_map_of_mem (by simpa using hy')
    have hq := ((belongs_self hsocket).mp ((hmem _).mp hself)).2.2
    rw [hlocal] at hq
    cases hq
    -- the socket was there already and is there twice
    simp only [listenPort, update_self, getD_some] at hl
    obtain ⟨hs, rest, rfl, hold, hrest⟩ := append_eq_map_iff.mp hl
    obtain ⟨z, rfl, hz⟩ := map_eq_singleton_iff.mp hrest
    cases hz
    rw [map_append, nodup_append] at hnodup
    refine hnodup.2.2 (.socket k) ?_ (.socket k) (by simp) rfl
    rw [← howner]
    rw [← hold] at hy
    exact mem_map_of_mem (by simpa using hy)

theorem broken_listenPort : Broken s k p (listenPort t port (.socket k)).1 := by
  refine .inr (.inr ⟨port, ⟨.socket k, ((t port).getD []).length⟩, ?_, rfl⟩)
  simp only [listenPort, update_self, getD_some]
  exact mem_append_right _ (mem_singleton.mpr rfl)

theorem Inv.removeListenPort_cases (h : Inv s) (hr : removeListenPort (s.table p) a i = .ok t) :
    (s.table p a = none ∧ t = s.table p) ∨
    ∃ handlers y, s.table p a = some handlers ∧ handlers[i]? = some (some y) ∧ y.index = i ∧
      Belongs s p a y.owner ∧ t = update (s.table p) a (some (handlers.dropLast.set i none)) := by
  unfold removeListenPort at hr
  cases ht : s.table p a with
  | none =>
    rw [ht] at hr
    exact .inl ⟨rfl, (Except.ok.inj hr).symm⟩
  | some handlers =>
    simp only [ht] at hr
    cases hi : handlers[i]? with
    | none => rw [hi] at hr; cases hr
    | some item =>
      have hclean := h.clean p a
      rw [ht, getD_some] at hclean
      obtain ⟨y, rfl, hindex, hbelongs⟩ := hclean.get hi
      rw [hi] at hr
      obtain ⟨rest, hrest, hr⟩ := bind_eq_ok hr
      have hlt := (List.getElem?_eq_some_iff.mp hi).1
      rw [hindex] at hrest
      rw [vectorRemove_ok hlt hrest] at hr
      exact .inr ⟨handlers, y, rfl, hi, hindex, hbelongs, (Except.ok.inj hr).symm⟩

theorem none_mem_dropLast_set {α : Type*} {l : List (Option α)} (hi : i + 1 < l.length) :
    none ∈ l.dropLast.set i none := by
  apply mem_of_getElem?
  rw [getElem?_set_self (by rw [length_dropLast]; omega)]

theorem CleanAt.missing {l : List (Option Handler)} {B : Owner → Prop} {y : Handler}
    (h : CleanAt l B) (hi : l[i]? = some (some y)) (hlast : i + 1 = l.length) (z : Handler)
    (hz : some z ∈ l.dropLast.set i none) : z.owner ≠ y.owner := by
  obtain ⟨l, rfl⟩ : ∃ init, l = init ++ [some y] := by
    apply getLast?_eq_some_iff.mp
    rw [getLast?_eq_getElem?, ← hlast]
    exact hi
  have hlen : i = l.length := by simpa using hlast
  rw [dropLast_concat, set_eq_of_length_le (by omega)] at hz
  obtain ⟨w, hw, hclean⟩ := h.init
  cases hw
  obtain ⟨j, hj⟩ := mem_iff_getElem?.mp hz
  obtain ⟨v, hv, -, hbelongs⟩ := hclean.get hj
  cases hv
  exact hbelongs.2

theorem Inv.broken (h : Inv s) (hx : s.socket k = some x)
    (hr : removeListenPort (s.table x.protocol) a x.listenIndex = .ok t)
    (hfits : ¬ RemovalFits s x a) : Broken s k x.protocol t := by
  unfold RemovalFits at hfits
  cases hlocal : x.localPort with
  | none =>
    rw [hlocal] at hfits
    obtain ⟨hnone, -⟩ | ⟨handlers, y, ht, hi, -, hbelongs, rfl⟩ := h.removeListenPort_cases hr
    · exact absurd hnone hfits
    · have hlt := (List.getElem?_eq_some_iff.mp hi).1
      by_cases hlast : x.listenIndex + 1 = handlers.length
      · refine .inr (.inl ⟨a, y.owner, ?_, hbelongs, ?_⟩)
        · intro howner
          rw [howner, belongs_socket hx, hlocal] at hbelongs
          cases hbelongs.2.2
        · intro z hz
          have hclean := h.clean x.protocol a
          rw [ht, getD_some] at hclean
          rw [update_self, getD_some] at hz
          exact hclean.missing hi hlast z hz
      · refine .inl ⟨a, ?_⟩
        rw [update_self, getD_some]
        exact none_mem_dropLast_set (by omega)
  | some p =>
    rw [hlocal] at hfits
    have hown := h.placed k x p hx hlocal
    by_cases hap : a = p
    · subst hap
      obtain ⟨hnone, -⟩ | ⟨handlers, y, ht, hi, -, -, rfl⟩ := h.removeListenPort_cases hr
      · rw [hnone] at hown
        cases hown
      · have hlt := (List.getElem?_eq_some_iff.mp hi).1
        have hlast : x.listenIndex + 1 ≠ handlers.length :=
          fun hlast => hfits ⟨rfl, handlers, ht, hlast⟩
        refine .inl ⟨a, ?_⟩
        rw [update_self, getD_some]
        exact none_mem_dropLast_set (by omega)
    · refine .inr (.inr ⟨p, ⟨.socket k, x.listenIndex⟩, ?_, rfl⟩)
      have htp : t p = s.table x.protocol p := by
        obtain ⟨-, rfl⟩ | ⟨handlers, y, -, -, -, -, rfl⟩ := h.removeListenPort_cases hr
        · rfl
        · exact update_of_ne (fun heq => hap heq.symm) _ _
      rw [htp]
      exact mem_of_getElem? hown

section
variable (h : Inv s) (hx : s.socket k = some x)
include h hx

theorem Inv.fits_of_listen (hr : removeListenPort (s.table x.protocol) a x.listenIndex = .ok t)
    (hsocket : s'.socket = update s.socket k (some x')) (hlocal : x'.localPort = some port)
    (hp : x.protocol = p) (hd : Delivers (listenPort t port (.socket k)).1 (Belongs s' p)) :
    RemovalFits s x a := by
  subst hp
  by_contra hfits
  exact (h.broken hx hr hfits).not_delivers_of_listen hsocket hlocal hd

theorem socketBind_of_fits (hlock : x.isLocked = false)
    (ha : x.address = some a) (hfits : RemovalFits s x a) :
    ∃ r s', socketBind s k x port = .ok (r, s') ∧ Inv s' := by
  obtain ⟨t, hr, hc⟩ := h.removal hx hfits
  simp only [socketBind, hlock, ha, hr, ok_bind]
  refine ⟨_, _, rfl, ?_⟩
  exact h.register hx hc rfl rfl rfl rfl rfl rfl rfl (fun _ => rfl)

theorem fits_of_socketBind (hb : socketBind s k x port = .ok (r, s')) (hs : Registered s') :
    x.isLocked = false ∧ ∃ a, x.address = some a ∧ RemovalFits s x a := by
  unfold socketBind at hb
  cases hlock : x.isLocked with
  | true => rw [hlock] at hb; cases hb
  | false =>
    cases ha : x.address with
    | none => rw [hlock, ha] at hb; cases hb
    | some a =>
      simp only [hlock, ha] at hb
      obtain ⟨t, hr, hb⟩ := bind_eq_ok hb
      cases hb
      have hd := hs x.protocol
      simp only [setSocket, setTable, update_self] at hd
      exact ⟨rfl, a, rfl, h.fits_of_listen hx hr rfl rfl rfl hd⟩

theorem socketConnect_of_fits (hfits : ConnectFits s x port o) :
    ∃ r s', socketConnect s k x port o = .ok (r, s') ∧ Inv s' ∧
      (x.protocol = .tcp → ∃ y, s'.socket k = some y ∧ y.isConnect = true) := by
  obtain ⟨hlock, hremove, htcp⟩ := hfits
  obtain ⟨t, hr, hc⟩ := h.removal hx hremove
  unfold socketConnect
  rw [hlock, hr]
  simp only [Bool.false_eq_true, if_false, ok_bind]
  cases hp : x.protocol with
  | udp =>
    refine ⟨_, _, rfl, ?_, fun heq => by cases heq⟩
    exact h.register hx hc rfl (by rw [hp]; rfl) rfl rfl rfl hp.symm rfl (fun _ => rfl)
  | tcp =>
    by_cases heio : (x.isConnect && !o.closes) = true
    · simp only [heio, if_true]
      refine ⟨_, _, rfl, ?_, fun _ => ⟨_, update_self .., ?_⟩⟩
      · refine h.leave hx hc rfl (by rw [hp]; rfl) rfl rfl hp.symm rfl (fun heq => ?_)
        rw [hp] at heq
        cases heq
      · exact (Bool.and_eq_true _ _ ▸ heio).1
    · simp only [heio]
      have haccepted := (htcp hp).resolve_left heio
      simp only [tcpConnect, haccepted]
      refine ⟨_, _, rfl, ?_, fun _ => ⟨_, update_self .., rfl⟩⟩
      refine h.register hx hc rfl (by rw [hp]; rfl) rfl rfl rfl rfl rfl (fun heq => ?_)
      rw [hp] at heq
      cases heq

theorem fits_of_socketConnect (hb : socketConnect s k x port o = .ok (r, s'))
    (hs : Delivers (s'.table x.protocol) (Belongs s' x.protocol)) : ConnectFits s x port o := by
  unfold socketConnect at hb
  cases hlock : x.isLocked with
  | true => rw [hlock] at hb; cases hb
  | false =>
    rw [hlock] at hb
    simp only [Bool.false_eq_true, if_false] at hb
    obtain ⟨t, hr, hb⟩ := bind_eq_ok hb
    refine ⟨hlock, ?_⟩
    cases hp : x.protocol with
    | udp =>
      rw [hp] at hb hs
      cases hb
      simp only [setSocket, setTable, update_self] at hs
      exact ⟨h.fits_of_listen hx hr rfl rfl hp hs, fun heq => by cases heq⟩
    | tcp =>
      rw [hp] at hb hs
      by_cases heio : (x.isConnect && !o.closes) = true
      · simp only [heio, if_true] at hb
        cases hb
        refine ⟨?_, fun _ => .inl heio⟩
        by_contra hfits
        have hbroken := h.broken hx hr hfits
        rw [hp] at hbroken
        simp only [setSocket, setTable, update_self] at hs
        exact absurd hs (hbroken.not_delivers_of_none rfl rfl)
      · simp only [heio] at hb
        have hb := Except.ok.inj hb
        cases hanswer : o.answer with
        | accepted =>
          simp only [tcpConnect, hanswer] at hb
          obtain ⟨rfl, rfl⟩ := Prod.mk.inj hb
          simp only [setSocket, setTable, update_self] at hs
          exact ⟨h.fits_of_listen hx hr rfl rfl hp hs, fun _ => .inr rfl⟩
        | refused | silent =>
          simp only [tcpConnect, hanswer] at hb
          obtain ⟨rfl, rfl⟩ := Prod.mk.inj hb
          simp only [setSocket, setTable, update_self] at hs
          exact absurd hs (broken_listenPort.not_delivers_of_none rfl rfl)

end

theorem socketConnect_protocol {y : Socket}
    (hb : socketConnect s k x port o = .ok (r, s')) (hy : s'.socket k = some y) :
    y.protocol = x.protocol := by
  unfold socketConnect at hb
  split at hb
  · cases hb
  · obtain ⟨t, hr, hb⟩ := bind_eq_ok hb
    split at hb
    · cases hb
      obtain rfl := Option.some.inj ((State.setSocket_socket_self ..).symm.trans hy)
      rfl
    · split at hb
      · cases hb
        obtain rfl := Option.some.inj ((State.setSocket_socket_self ..).symm.trans hy)
        rfl
      · cases hanswer : o.answer <;>
          simp only [tcpConnect, hanswer] at hb <;>
          obtain ⟨rfl, rfl⟩ := Prod.mk.inj (Except.ok.inj hb) <;>
          obtain rfl := Option.some.inj ((State.setSocket_socket_self ..).symm.trans hy) <;>
          rfl

theorem udpSend_of_fits (h : Inv s) (hx : s.socket k = some x) (hp : x.protocol = .udp)
    (hfits : ∀ a, x.address = some a → RemovalFits s x a) :
    ∃ s', udpSend s k x port = .ok s' ∧ Inv s' := by
  have hremoved : ∃ t, udpRemove s x = .ok t ∧ Cleared s k x.protocol t := by
    unfold udpRemove
    cases ha : x.address with
    | none =>
      refine ⟨s.table .udp, rfl, ?_⟩
      rw [← hp]
      exact h.cleared_of_none hx ((h.udpAddress k x hx hp).symm.trans ha)
    | some a =>
      obtain ⟨t, hr, hc⟩ := h.removal hx (hfits a ha)
      rw [hp] at hr
      exact ⟨t, hr, hc⟩
  obtain ⟨t, ht, hc⟩ := hremoved
  simp only [udpSend, ht, ok_bind]
  refine ⟨_, rfl, ?_⟩
  exact h.register hx hc rfl (by rw [hp]; rfl) rfl (if_pos hp) rfl rfl rfl (fun _ => (if_pos hp).symm)

theorem fits_of_udpSend (h : Inv s) (hx : s.socket k = some x) (hp : x.protocol = .udp)
    (hb : udpSend s k x port = .ok s') (hs : Registered s') (a : Port) (ha : x.address = some a) :
    RemovalFits s x a := by
  obtain ⟨t, hr, hb⟩ := bind_eq_ok hb
  cases hb
  simp only [udpRemove, ha] at hr
  rw [← hp] at hr
  have hd := hs .udp
  simp only [setSocket, setTable, update_self] at hd
  exact h.fits_of_listen hx hr rfl (if_pos hp) hp hd

theorem udpSend_tcp (hx : s.socket k = some x) (hp : x.protocol = .tcp)
    (hb : udpSend s k x port = .ok s') (hs : Delivers (s'.table .tcp) (Belongs s' .tcp)) :
    Delivers (s.table .tcp) (Belongs s .tcp) := by
  obtain ⟨t, -, hb⟩ := bind_eq_ok hb
  cases hb
  intro q
  obtain ⟨owners, howners, hnodup, hmem⟩ := hs q
  refine ⟨owners, howners, hnodup, ?_⟩
  intro o
  rw [hmem o]
  by_cases ho : o = .socket k
  · subst ho
    rw [belongs_self rfl, belongs_socket hx]
    simp [hp]
  · exact belongs_of_ne rfl ho

theorem socketSend_of_fits (h : Inv s) (hx : s.socket k = some x)
    (hudp : x.protocol = .udp → ∀ a, x.address = some a → RemovalFits s x a)
    (htcp : x.protocol = .tcp → ConnectFits s x port o) :
    ∃ r s', socketSend s k x port o = .ok (r, s') ∧ Inv s' := by
  cases hp : x.protocol with
  | udp =>
    have hremoved : ∃ s', udpSend s k x port = .ok s' ∧ Inv s' := udpSend_of_fits h hx hp (hudp hp)
    obtain ⟨s', hsend, hs'⟩ := hremoved
    exact ⟨.success, s', by simp only [socketSend, hp, hsend, ok_bind], hs'⟩
  | tcp =>
    obtain ⟨r, s', hconnect, hs', hy⟩ := socketConnect_of_fits h hx (htcp hp)
    obtain ⟨y, hy, hyc⟩ := hy hp
    exact ⟨.success, s', by simp only [socketSend, hp, hconnect, ok_bind, hy, hyc, if_true], hs'⟩

theorem fits_of_socketSend (h : Inv s) (hx : s.socket k = some x) (hb : socketSend s k x port o = .ok (r, s')) (hs : Registered s') :
    (x.protocol = .udp → ∀ a, x.address = some a → RemovalFits s x a) ∧
      (x.protocol = .tcp → ConnectFits s x port o) := by
  unfold socketSend at hb
  cases hp : x.protocol with
  | udp =>
    refine ⟨fun _ => ?_, fun heq => by cases heq⟩
    rw [hp] at hb
    obtain ⟨s1, hsend, hb⟩ := bind_eq_ok hb
    cases hb
    exact fits_of_udpSend h hx hp hsend hs
  | tcp =>
    refine ⟨fun heq => (by cases heq), fun _ => ?_⟩
    rw [hp] at hb
    obtain ⟨⟨r1, s1⟩, hconnect, hb⟩ := bind_eq_ok hb
    apply fits_of_socketConnect h hx hconnect
    rw [hp]
    cases hy : s1.socket k with
    | none => simp only [hy] at hb; cases hb
    | some y =>
      simp only [hy] at hb
      split at hb
      · cases hb
        exact hs .tcp
      · obtain ⟨s2, hsend, hb⟩ := bind_eq_ok hb
        cases hb
        exact udpSend_tcp hy ((socketConnect_protocol hconnect hy).trans hp) hsend (hs .tcp)

theorem socketHandler_socket : (socketHandler s p).socket =
    update s.socket s.next (some ⟨p, none, 0, false, false, true, none⟩) :=
  rfl

theorem Inv.socketHandler (h : Inv s) (p : Protocol) : Inv (socketHandler s p) := by
  have hfresh := h.fresh _ (le_refl _)
  constructor
  · intro q port
    refine (h.clean q port).congr ?_
    intro o
    by_cases ho : o = .socket s.next
    · subst ho
      simp [Belongs, hfresh, Registration.socketHandler, setSocket]
    · exact (belongs_of_ne rfl ho).symm
  · intro j y hy
    obtain ⟨-, rfl⟩ | ⟨-, hy⟩ := socket_cases socketHandler_socket hy
    · rfl
    · exact h.allOpen j y hy
  · intro j y port hy hlocal
    obtain ⟨-, rfl⟩ | ⟨-, hy⟩ := socket_cases socketHandler_socket hy
    · cases hlocal
    · exact h.placed j y port hy hlocal
  · intro j y hy hp
    obtain ⟨-, rfl⟩ | ⟨-, hy⟩ := socket_cases socketHandler_socket hy
    · rfl
    · exact h.udpAddress j y hy hp
  · intro j hj
    have hj' : s.next + 1 ≤ j := hj
    rw [socketHandler_socket, update_of_ne (by omega)]
    exact h.fresh j (by omega)

end Change

theorem inv_start : Inv start := by
  have hsocket : ∀ k x, start.socket k ≠ some x := by
    intro k x hx
    cases hx
  constructor
  · intro p port
    have hbelongs : ∀ o, Belongs start p port o ↔ o = .dhcp ∧ p = .udp ∧ port = dhcpPort := by
      intro o
      cases o with
      | dhcp => simp [Belongs]
      | socket k =>
        simp only [reduceCtorEq, false_and, iff_false]
        rintro ⟨x, hx, -⟩
        exact hsocket k x hx
    have hempty : CleanAt [] fun _ => False := ⟨[], rfl, by simp, nodup_nil, by simp⟩
    cases p with
    | tcp => exact hempty.congr fun o => by simp [hbelongs]
    | udp =>
      rw [show start.table .udp = (listenPort (fun _ => none) dhcpPort .dhcp).1 from rfl]
      by_cases hport : port = dhcpPort
      · subst hport
        simp only [listenPort, update_self, getD_some]
        exact (hempty.concat id).congr fun o => by simp [hbelongs]
      · simp only [listenPort, update_of_ne hport]
        exact hempty.congr fun o => by simp [hbelongs, hport]
  · intro k x hx
    exact absurd hx (hsocket k x)
  · intro k x port hx
    exact absurd hx (hsocket k x)
  · intro k x hx
    exact absurd hx (hsocket k x)
  · intro k _
    rfl

theorem State.on_none (hk : s.socket k = none) : s.on k f = .ok (.ebadf, s) := by
  simp only [State.on, hk]

theorem State.on_some {x : Socket} (hk : s.socket k = some x) : s.on k f = f x := by
  simp only [State.on, hk]

theorem call_of_meets (h : Inv s) (hm : Meets s e) : ∃ r s', call s e = .ok (r, s') ∧ Inv s' := by
  cases e with
  | create p => exact ⟨_, _, rfl, h.socketHandler p⟩
  | close k => exact ⟨_, _, State.on_none hm, h⟩
  | bind k port =>
    cases hx : s.socket k with
    | none => exact ⟨_, _, State.on_none hx, h⟩
    | some x =>
      obtain ⟨hlock, a, ha, hfits⟩ := hm x hx
      rw [call, on_some hx]
      exact socketBind_of_fits h hx hlock ha hfits
  | connect k port o =>
    cases hx : s.socket k with
    | none => exact ⟨_, _, State.on_none hx, h⟩
    | some x =>
      obtain ⟨r, s', hconnect, hs', -⟩ := socketConnect_of_fits h hx (hm x hx)
      exact ⟨r, s', (State.on_some hx).trans hconnect, hs'⟩
  | send k port o =>
    cases hx : s.socket k with
    | none => exact ⟨_, _, State.on_none hx, h⟩
    | some x =>
      rw [call, on_some hx]
      exact socketSend_of_fits h hx (hm x hx).1 (hm x hx).2

theorem meets_of_good (h : Inv s) (hcall : call s e = .ok (r, s'))
    (hgood : Good s e r s') : Meets s e := by
  cases e with
  | create p => trivial
  | close k =>
    cases hx : s.socket k with
    | none => exact hx
    | some x =>
      rw [call, on_some hx] at hcall
      cases hcall
      cases hgood.2 k x rfl hx
  | bind k port =>
    intro x hx
    rw [call, on_some hx] at hcall
    exact fits_of_socketBind h hx hcall hgood.1
  | connect k port o =>
    intro x hx
    rw [call, on_some hx] at hcall
    exact fits_of_socketConnect h hx hcall (hgood.1 _)
  | send k port o =>
    intro x hx
    rw [call, on_some hx] at hcall
    exact fits_of_socketSend h hx hcall hgood.1

theorem good_of_meets (h : Inv s') (hm : Meets s e) : Good s e r s' := by
  refine ⟨h.registered, ?_⟩
  rintro k x rfl hx
  rw [show s.socket k = none from hm] at hx
  cases hx

theorem inv_of_run {events : List Event} (hrun : Run (Guarded Step Meets) start events s) :
    Inv s := by
  apply hrun.invariant inv_start
  rintro s e s' hs ⟨⟨r, hcall⟩, hm⟩
  obtain ⟨r', t, ht, hinv⟩ := call_of_meets hs hm
  rw [hcall] at ht
  cases ht
  exact hinv

end Kot.Net.Registration
