/-!
# Capability names

A capability value is a number. The first values have a name; the value of a
name is its position in the table.
-/

namespace Capabilities

/-- A capability, known by its number. -/
abbrev Value := Nat

namespace Value

def names : List String :=
  ["cap_chown", "cap_dac_override", "cap_dac_read_search", "cap_fowner", "cap_fsetid",
   "cap_kill", "cap_setgid", "cap_setuid", "cap_setpcap", "cap_linux_immutable",
   "cap_net_bind_service", "cap_net_broadcast", "cap_net_admin", "cap_net_raw",
   "cap_ipc_lock", "cap_ipc_owner", "cap_sys_module", "cap_sys_rawio", "cap_sys_chroot",
   "cap_sys_ptrace", "cap_sys_pacct", "cap_sys_admin", "cap_sys_boot", "cap_sys_nice",
   "cap_sys_resource", "cap_sys_time", "cap_sys_tty_config", "cap_mknod", "cap_lease",
   "cap_audit_write", "cap_audit_control", "cap_setfcap", "cap_mac_override",
   "cap_mac_admin", "cap_syslog", "cap_wake_alarm", "cap_block_suspend", "cap_audit_read",
   "cap_perfmon", "cap_bpf", "cap_checkpoint_restore"]

/-- How many values have a name. -/
def nameCount : Nat := names.length

def name? (v : Value) : Option String := names[v]?

/-- The value with a name, in any case of its ASCII letters. -/
def ofName? (cs : List Char) : Option Value :=
  names.findIdx? fun name => name.toList == cs.map Char.toLower

/-- The value changes groups without restriction. -/
def setgid : Value := 6

/-- The value changes users without restriction. -/
def setuid : Value := 7

/-- The value changes capability state beyond what is held. -/
def setpcap : Value := 8

/-- The value attaches capabilities to files. -/
def setfcap : Value := 31

end Value

end Capabilities
