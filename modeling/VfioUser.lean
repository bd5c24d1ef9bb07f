import VfioUser.Dma.Basic
import VfioUser.Dma.Dirty
import VfioUser.Dma.InitSg
import VfioUser.Dma.Split
import VfioUser.Dma.AddrToSg
import VfioUser.Dma.MapSg
import VfioUser.Dma.Controller
import VfioUser.Dma.System
import VfioUser.Dma.Thread
import VfioUser.Pci.ConfigSpace
import VfioUser.Pci.Header
import VfioUser.Pci.Access
import VfioUser.Pci.Device
import VfioUser.Pci.Registers
import VfioUser.Dma.Refcount
import VfioUser.Dma.Logging
