import Csci402.Api.Dup
import Csci402.Api.Getdents
import Csci402.Emulator.Flow
import Csci402.Emulator.Input
import Csci402.Emulator.Statistics
import Csci402.Emulator.Stopping
import Csci402.Emulator.Release
import Csci402.Emulator.Trace
import Csci402.Emulator.Waiting
import Csci402.Proc.KmutexRun
import Csci402.Proc.RunState
import Csci402.Proc.Pids
import Csci402.Fs.VnodeRun
import Csci402.Fs.Positions
import Csci402.Fs.Mappings
import Csci402.Mm.CopyRun
import Csci402.Mm.Pageout
import Csci402.Vm.FirstFit
import Csci402.Vm.Fork
import Csci402.Vm.Counts
import Csci402.Vm.MapCalls
import Csci402.Vm.Brk
import Csci402.Vm.Isolation
import Csci402.Vm.Mmu
import Csci402.Vm.Writable
import Csci402.Vm.Spaces
import Csci402.Warmup.BubbleSort
import Csci402.Warmup.Fields
import Csci402.Warmup.Format
