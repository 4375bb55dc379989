import BenmoshOS.Heap.Requests
import BenmoshOS.Heap.DoubleFree
import BenmoshOS.Pmm.Invariant
import BenmoshOS.Pmm.Init
import BenmoshOS.Vmm.Mappers
import BenmoshOS.Vmm.StackFrames
import BenmoshOS.Task.Switch
import BenmoshOS.Task.Conservation
import BenmoshOS.Cpu.Interrupts
import BenmoshOS.Fat16.Faults
import BenmoshOS.Fat16.Operations
import BenmoshOS.Fat16.Footprint
import BenmoshOS.Fat16.Paths
import BenmoshOS.Fat16.Containment
import BenmoshOS.Fat16.NameMap
import BenmoshOS.Fat16.Boot
import BenmoshOS.Fat16.LongNames
import BenmoshOS.Fat16.ChainWalks
import BenmoshOS.Fat16.ShortNames
import BenmoshOS.Fat16.Spans
import BenmoshOS.Fat16.Insertion
import BenmoshOS.Fat16.Parents
import BenmoshOS.Fat16.Contents
import BenmoshOS.Fat16.Files
import BenmoshOS.Fat16.Failures
import BenmoshOS.Fat16.LetterCase
import BenmoshOS.Pmm.Reserve
import BenmoshOS.Task.RoundRobin
import BenmoshOS.Task.Contexts
import BenmoshOS.Print.View
import BenmoshOS.Print.History
import BenmoshOS.Print.Erase
import BenmoshOS.Shell.Editor
import BenmoshOS.Pmm.Summary
import BenmoshOS.Klib.Stdlib
import BenmoshOS.Klib.Sequences
import BenmoshOS.Keyboard.Queue
import BenmoshOS.Keyboard.Modifiers
import BenmoshOS.Syscall.ReadLine
import BenmoshOS.Heap.Dump
import BenmoshOS.Fat16.Mirror
import BenmoshOS.Print.Indices
import BenmoshOS.Ata.Drive
import BenmoshOS.Boot.MemoryMap
import BenmoshOS.Klib.Itoh
import BenmoshOS.Klib.Stdio
import BenmoshOS.Cpu.Pic
import BenmoshOS.Cpu.Stubs
import BenmoshOS.Cpu.Descriptors
