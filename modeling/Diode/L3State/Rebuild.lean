import Diode.L3State.Coherence

/-!
# Compact and rebuild

`account_map_uncompact_state` on the term `account_map_compact` makes: the new
map answers every query as the old one does, and compacts to the same accounts
(`rebuilt_answers`). Its state trie is built from the accounts, so it is the old
one where the old one is coherent. A map whose trie fell behind its table comes
back with another state root.
-/
namespace Diode.L3
open Diode.Core Diode.L1.Ext Function Heap

namespace Heap
variable {sha : Bytes → Word} {h : Heap} {m : Nat} {v : View}

/-- A compacted map, uncompacted. -/
theorem uncompact_compact (hk : Ok sha h) (hv : h.view m = some v) :
    ∃ t h', (h.accountMapCompact sha m).2 = some t ∧
      (h.accountMapCompact sha m).1.uncompactTerm sha t = some
        ((h.accountMapCompact sha m).1.nextMap, h') ∧ Ok sha h' ∧
      h'.view (h.accountMapCompact sha m).1.nextMap = some
        (View.ofAccounts sha v.accounts.entries) := by
  obtain ⟨hm, t, l, ht, hl, hnd, hon, hacc⟩ := compact_spec hk hv
  obtain ⟨h', he, hb, -⟩ := uncompactTerm_builds hm.ok hl hnd hon
  rw [hacc] at hb
  exact ⟨t, h', ht, he, hb.ok, hb.view⟩

/-- After every run of successful calls, the map made from the compact term of
another answers as that one does, and its own compact term stands for the same
accounts. -/
theorem rebuilt_answers (ops : List Op) (hc : Heap.init.CarefulRun sha ops)
    (hs : Heap.init.successful sha ops = true)
    (m : Nat) (v : View) (hv : (Heap.init.run sha ops).view m = some v) :
    ∃ t n h' w, ((Heap.init.run sha ops).accountMapCompact sha m).2 = some t ∧
      ((Heap.init.run sha ops).accountMapCompact sha m).1.uncompactTerm sha t = some (n, h') ∧
        h'.view n = some w ∧
      w.accounts = v.accounts ∧ w.trie = v.trie ∧
      (∀ q, (h'.ask sha n q).2 = ((Heap.init.run sha ops).ask sha m q).2) ∧
      ∃ t' l, (h'.accountMapCompact sha n).2 = some t' ∧ parseCompactState t' = some l ∧
        l.map (fun p => (p.1, p.2.account)) = v.accounts.entries := by
  have hk := run_ok ok_init hc
  have hcoh := run_coherent ok_init hc hs (fun _ _ hu => by cases hu) m v hv
  obtain ⟨t, h', ht, he, hk', hw⟩ := uncompact_compact hk hv
  have ha : (View.ofAccounts sha v.accounts.entries).accounts = v.accounts := ofAccounts_accounts _
  have htrie := hcoh.trie_ofAccounts
  obtain ⟨-, t', l, ht', hl, -, -, hacc⟩ := compact_spec hk' hw
  rw [ha] at hacc
  refine ⟨t, _, h', _, ht, he, hw, ha, htrie.symm, fun q => ?_, t', l, ht', hl, hacc⟩
  rw [(ask_moves hk' hw q).1, (ask_moves hk hv q).1]
  exact answer_congr htrie.symm ha q

end Heap
end Diode.L3
